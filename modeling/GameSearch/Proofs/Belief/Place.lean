import GameSearch.Proofs.Arena
import GameSearch.Proofs.StateSet
import GameSearch.Tree.Belief

/-!
# Beliefs of an arena

A `Place` is a node with a belief, less its valuation.  `Arena.place?` is the view of an arena that
the operations on beliefs are described by: each of them changes some places, and what it does to the
valuations does not matter to it.
-/

namespace GameSearch

lemma Belief.one_le_size (b : Belief) : 1 ≤ b.worlds.size := by
  have hne := b.nonempty
  rw [Std.ExtTreeSet.isEmpty_eq_size_beq_zero, beq_eq_false_iff_ne] at hne
  omega

lemma Belief.view?_eq_some {b : Belief} {view : View} :
    b.view? = some view ↔ b.standing = .visible (some view) := by
  unfold Belief.view?
  cases b.standing <;> simp

/-- A node with a belief, whatever its valuation. -/
structure Place where
  parent : Option Int
  depth : Nat
  role : Role
  belief : Belief
  edges : Option (Array Edge) := none
  move : Option Move := none

/-- Places by number. -/
abbrev Forest := NodeId → Option Place

namespace Place

variable {R : Type} {p q : Place} {w : State} {turn : Turn}

/-- The node at a place. -/
def toNode (p : Place) (valuation : Option (Valuation R)) : Node R :=
  ⟨p.parent, p.depth, p.role, .belief p.belief, p.edges, valuation, p.move⟩

@[simp] lemma toNode_depth (v : Option (Valuation R)) : (p.toNode v).depth = p.depth := rfl

@[simp] lemma toNode_role (v : Option (Valuation R)) : (p.toNode v).role = p.role := rfl

@[simp] lemma toNode_knowledge (v : Option (Valuation R)) :
    (p.toNode v).knowledge = .belief p.belief := rfl

@[simp] lemma toNode_edges (v : Option (Valuation R)) : (p.toNode v).edges = p.edges := rfl

@[simp] lemma toNode_move (v : Option (Valuation R)) : (p.toNode v).move = p.move := rfl

/-- The edges in their order, none if the place was never expanded. -/
def edgeList (p : Place) : List Edge := (p.edges.getD #[]).toList

/-- The key of an edge out of a world. -/
def keyOf (p : Place) (w : State) (turn : Turn) : Edge.Key :=
  ⟨some w, if p.belief.isVisible then turn.restrict p.role else turn⟩

/-- Whether a turn agrees with the move that the owner is committed to. -/
def accepts (p : Place) (turn : Turn) : Bool :=
  match p.move with
  | none => true
  | some move => !p.belief.isVisible || turn.contains p.role move

/-- The transitions that the edges out of a world stand for. -/
def out (p : Place) (w : State) : List (Turn × State) :=
  (p.edgeList.filter fun e => e.key.world = some w).map fun e => (e.turn, e.next)

lemma edgeList_of_none (h : p.edges = none) : p.edgeList = [] := by
  simp [edgeList, h]

lemma edgeList_of_some {edges : Array Edge} (h : p.edges = some edges) : p.edgeList = edges.toList := by
  simp [edgeList, h]

lemma mem_out {step : Turn × State} :
    step ∈ p.out w ↔ ∃ e ∈ p.edgeList, e.key.world = some w ∧ e.turn = step.1 ∧ e.next = step.2 := by
  simp [out, Prod.ext_iff, and_assoc]

lemma out_eq_of_edges_eq (h : p.edgeList = q.edgeList) : p.out w = q.out w := by
  simp only [out, h]

lemma out_of_edgeList_eq_nil (h : p.edgeList = []) : p.out w = [] := by
  simp [out, h]

end Place

/-! ## Turns -/

namespace Turn

lemma find?_single (role other : Role) (move : Move) :
    (single role move).find? other = if role = other then some move else none := by
  by_cases h : role = other <;> simp [single, find?, h]

lemma find?_restrict (turn : Turn) (role : Role) : (turn.restrict role).find? role = turn.find? role := by
  unfold restrict
  cases h : turn.find? role with
  | none => rfl
  | some move => rw [find?_single, if_pos rfl]

lemma contains_restrict (turn : Turn) (role : Role) (move : Move) :
    (turn.restrict role).contains role move = turn.contains role move := by
  simp only [contains, find?_restrict]

end Turn

namespace Node

variable {R : Type} {n : Node R} {p : Place}

/-- Whether a turn agrees with the move that the owner is committed to. -/
def accepts (n : Node R) (turn : Turn) : Bool := n.move.all fun move => turn.contains n.role move

/-- The place of a node, if its owner has a belief. -/
def place? (n : Node R) : Option Place :=
  match n.knowledge with
  | .perfect _ _ => none
  | .belief b => some ⟨n.parent, n.depth, n.role, b, n.edges, n.move⟩

@[simp] lemma place?_toNode (p : Place) (v : Option (Valuation R)) : (p.toNode v).place? = some p := rfl

lemma place?_eq_some : n.place? = some p ↔ n = p.toNode n.valuation := by
  obtain ⟨parent, depth, role, knowledge, edges, valuation, move⟩ := n
  cases knowledge with
  | perfect s turn => simp [place?, Place.toNode]
  | belief b =>
    simp only [place?, Place.toNode, Option.some.injEq, Node.mk.injEq, Knowledge.belief.injEq]
    constructor
    · rintro rfl
      simp
    · rintro ⟨h1, h2, h3, h4, h5, -, h6⟩
      cases p
      simp_all

lemma kind_toNode (p : Place) (v : Option (Valuation R)) :
    (p.toNode v).kind = if p.belief.isVisible then .visible else .hidden := rfl

lemma keyOf_toNode (p : Place) (v : Option (Valuation R)) (w : State) (turn : Turn) :
    Arena.keyOf (p.toNode v) w turn = p.keyOf w turn := by
  rw [Arena.keyOf, kind_toNode, Place.keyOf]
  cases p.belief.isVisible <;> rfl

lemma isCommitted_toNode {p : Place} {e : Edge} {w : State} (hkey : e.key = p.keyOf w e.turn)
    (v : Option (Valuation R)) : (p.toNode v).isCommitted e = p.accepts e.turn := by
  simp only [isCommitted, Place.accepts, kind_toNode]
  cases hmove : p.move with
  | none => simp [Place.toNode, hmove]
  | some move =>
    simp only [Place.toNode, hmove]
    cases hv : p.belief.isVisible with
    | false => simp
    | true => simp [hkey, Place.keyOf, hv, Turn.contains_restrict]

lemma isExpanded_toNode (p : Place) (v : Option (Valuation R)) :
    (p.toNode v).isExpanded = (p.edges.isSome && p.belief.isExpanded) := rfl

end Node

namespace Arena

variable {R : Type} {a a' : Arena R} {id other : NodeId} {p : Place} {n : Node R}

/-- The place with the given number. -/
def place? (a : Arena R) : Forest := fun id => (a.find? id).bind Node.place?

/-- Every node has a belief, and the numbers to be given out are in order. -/
structure Sane (a : Arena R) : Prop where
  orderly : a.Orderly
  beliefs : ∀ id n, a.find? id = some n → n.place?.isSome = true

lemma sane_empty : (∅ : Arena R).Sane := ⟨orderly_empty, fun id n h => by simp [find?_empty] at h⟩

lemma place?_of_find? (h : a.find? id = some n) : a.place? id = n.place? := by simp [place?, h]

lemma find?_of_place? (h : a.place? id = some p) : ∃ v, a.find? id = some (p.toNode v) := by
  obtain ⟨n, hn, hp⟩ := Option.bind_eq_some_iff.1 h
  exact ⟨n.valuation, by rw [hn, ← Node.place?_eq_some.1 hp]⟩

lemma Sane.find?_eq_none (h : a.Sane) : a.find? id = none ↔ a.place? id = none := by
  constructor
  · intro hn
    simp [place?, hn]
  · intro hn
    cases hf : a.find? id with
    | none => rfl
    | some n =>
      have := h.beliefs id n hf
      rw [← place?_of_find? hf, hn] at this
      cases this

lemma Sane.contains_iff (h : a.Sane) : a.contains id = true ↔ ∃ p, a.place? id = some p := by
  rw [contains, Option.isSome_iff_ne_none, ← Option.ne_none_iff_exists', ne_eq, ne_eq,
    h.find?_eq_none]

lemma edgesOf_of_place? (h : a.place? id = some p) : a.edgesOf id = p.edgeList := by
  obtain ⟨v, hv⟩ := find?_of_place? h
  simp [edgesOf, hv, Place.edgeList, Place.toNode]

lemma Sane.edgesOf_eq_nil (h : a.Sane) (hp : a.place? id = none) : a.edgesOf id = [] := by
  simp [edgesOf, h.find?_eq_none.2 hp]

lemma node_run (h : a.place? id = some p) : ∃ v, node id a = .ok (p.toNode v) a := by
  obtain ⟨v, hv⟩ := find?_of_place? h
  exact ⟨v, node_of_find? hv⟩

lemma belief?_of_place? (h : a.place? id = some p) : a.belief? id = .ok p.belief := by
  obtain ⟨v, hv⟩ := find?_of_place? h
  simp [belief?, node?, hv, Place.toNode, bind, Except.bind, pure, Except.pure]

lemma belief_run (h : a.place? id = some p) : belief id a = .ok p.belief a := by
  rw [belief, Action.bind_of_ok (Action.get_run a), belief?_of_place? h]
  rfl

lemma Sane.node_eq_ok (hsane : a.Sane) (h : node id a = .ok n a') :
    a' = a ∧ ∃ p v, a.place? id = some p ∧ n = p.toNode v := by
  obtain ⟨hn, rfl⟩ := Arena.node_eq_ok.1 h
  obtain ⟨p, hp⟩ := Option.isSome_iff_exists.1 (hsane.beliefs id n hn)
  exact ⟨rfl, p, n.valuation, by rw [place?_of_find? hn, hp], Node.place?_eq_some.1 hp⟩

lemma Sane.belief_eq_ok {b : Belief} (hsane : a.Sane) (h : belief id a = .ok b a') :
    a' = a ∧ ∃ p, a.place? id = some p ∧ b = p.belief := by
  cases hp : a.place? id with
  | some p =>
    rw [belief_run hp] at h
    cases h
    exact ⟨rfl, p, rfl, rfl⟩
  | none =>
    have hnone : a.belief? id = .error (.noNode id) := by
      simp [belief?, node?, hsane.find?_eq_none.2 hp, bind, Except.bind]
    rw [belief, Action.bind_of_ok (Action.get_run a), hnone] at h
    cases h

/-! ## Changes of a place -/

lemma place?_update {f : Node R → Node R} {g : Place → Place}
    (h : ∀ p v, (f (Place.toNode p v)).place? = some (g p)) (hp : a.place? id = some p) :
    (a.update id f).place? = Function.update a.place? id (some (g p)) := by
  obtain ⟨v, hv⟩ := find?_of_place? hp
  funext other
  by_cases ho : other = id
  · subst ho
    simp [place?, hv, h]
  · simp [place?, ho]

lemma Sane.update (hsane : a.Sane) {f : Node R → Node R} {g : Place → Place}
    (h : ∀ p v, (f (Place.toNode p v)).place? = some (g p)) : (a.update id f).Sane := by
  refine ⟨hsane.orderly.update f, fun other n hn => ?_⟩
  rw [find?_update] at hn
  by_cases ho : other = id
  · rw [if_pos ho] at hn
    obtain ⟨m, hm, rfl⟩ := Option.map_eq_some_iff.1 hn
    obtain ⟨p, hp⟩ := Option.isSome_iff_exists.1 (hsane.beliefs id m hm)
    rw [Node.place?_eq_some.1 hp, h]
    rfl
  · rw [if_neg ho] at hn
    exact hsane.beliefs other n hn

/-- What an action on a place comes to. -/
lemma change_yields {f : Node R → Node R} {g : Place → Place}
    (h : ∀ p v, (f (Place.toNode p v)).place? = some (g p)) (hsane : a.Sane)
    (hp : a.place? id = some p) :
    ∃ a', change id f a = .ok ⟨⟩ a' ∧ a'.Sane ∧
      a'.place? = Function.update a.place? id (some (g p)) :=
  ⟨a.update id f, rfl, hsane.update h, place?_update h hp⟩

lemma changeBelief_yields (f : Belief → Belief) (hsane : a.Sane) (hp : a.place? id = some p) :
    ∃ a', changeBelief id f a = .ok ⟨⟩ a' ∧ a'.Sane ∧
      a'.place? = Function.update a.place? id (some { p with belief := f p.belief }) :=
  change_yields (g := fun p => { p with belief := f p.belief }) (fun _ _ => rfl) hsane hp

lemma changeBelief_eq_self {f : Belief → Belief} (hp : a.place? id = some p) (hf : f p.belief = p.belief) :
    changeBelief id f a = .ok ⟨⟩ a := by
  obtain ⟨v, hv⟩ := find?_of_place? hp
  rw [changeBelief, change_run, update_eq_self fun n hn => ?_]
  rw [hv, Option.some.injEq] at hn
  simp only [← hn, Place.toNode, hf]

lemma changeEdges_yields (f : Option (Array Edge) → Option (Array Edge)) (hsane : a.Sane)
    (hp : a.place? id = some p) :
    ∃ a', change id (fun n => { n with edges := f n.edges }) a = .ok ⟨⟩ a' ∧ a'.Sane ∧
      a'.place? = Function.update a.place? id (some { p with edges := f p.edges }) :=
  change_yields (g := fun p => { p with edges := f p.edges }) (fun _ _ => rfl) hsane hp

/-- A place is added under a number that was not in use. -/
lemma add_place_yields (hsane : a.Sane) (p : Place) :
    ∃ c a', add (.ok (p.toNode none)) a = .ok c a' ∧ a.place? c = none ∧ a'.Sane ∧
      a'.place? = Function.update a.place? c (some p) := by
  obtain ⟨c, a', hrun, hnone, ho, hfind⟩ := add_yields hsane.orderly (p.toNode none)
  refine ⟨c, a', hrun, by simp [place?, hnone], ⟨ho, fun id n hn => ?_⟩, funext fun id => ?_⟩
  · rw [hfind] at hn
    by_cases hid : id = c
    · rw [if_pos hid, Option.some.injEq] at hn
      rw [← hn]
      rfl
    · rw [if_neg hid] at hn
      exact hsane.beliefs id n hn
  · by_cases hid : id = c
    · simp [place?, hfind, hid]
    · simp [place?, hfind, hid]

end Arena

end GameSearch
