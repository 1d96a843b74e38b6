import GameSearch.Proofs.Frame
import GameSearch.Proofs.Perfect.Chart
import GameSearch.Tree.Develop

/-!
# The shape of trees

In a shaped arena the edges of a node lead to its children: each of them names the node as its parent,
is one ply deeper and has the same owner.  `Arena.Reshaped` is what growing and trimming trees of
whatever kind keeps, for any game: nodes stay where they are, and no valuation changes.
-/

namespace GameSearch

/-- Where a node stands: below which node, at which ply, and whose it is. -/
structure Station where
  parent : Option Int
  depth : Nat
  role : Role

/-- Where the children of a node stand. -/
def Station.child (s : Station) (id : NodeId) : Station := ⟨some (Int.ofNat id), s.depth + 1, s.role⟩

namespace Node

variable {R : Type} {n : Node R} {parent : Option Int} {depth : Int} {role : Role}

/-- Where a node stands. -/
def station (n : Node R) : Station := ⟨n.parent, n.depth, n.role⟩

/-- A node has a bucket for a child. -/
def Files (n : Node R) (k : NodeId) : Prop :=
  ∃ b, n.knowledge = .belief b ∧ ∃ o : Observation, b.buckets[o]? = some k

/-- A node has neither children nor a valuation, and its owner is not committed to a move. -/
structure Bare (n : Node R) : Prop where
  edges : n.edges = none
  files : ∀ k, ¬n.Files k
  valuation : n.valuation = none
  move : n.move = none

lemma not_files_of_perfect {s : State} {turn : Option Turn} (h : n.knowledge = .perfect s turn)
    (k : NodeId) : ¬n.Files k := by
  rintro ⟨b, hb, -⟩
  rw [h] at hb
  cases hb

lemma depth?_eq_ok {d : Nat} (h : depth? depth = .ok d) : d = depth.toNat := by
  unfold depth? at h
  split at h
  · cases h
  · cases h
    rfl

lemma perfect?_eq_ok {s : State} {turn : Option Turn} (h : perfect? parent depth role s turn = .ok n) :
    n = { parent := parent, depth := depth.toNat, role := role, knowledge := .perfect s turn } := by
  unfold perfect? at h
  cases hd : depth? depth with
  | error f =>
    rw [hd] at h
    cases h
  | ok d =>
    rw [hd, depth?_eq_ok hd] at h
    cases h
    rfl

lemma belief?_eq_ok {worlds : StateSet} {isComplete : Bool} {standing : Standing}
    (h : belief? parent depth role worlds isComplete standing = .ok n) : ∃ b : Belief, b.buckets = ∅ ∧
      n = { parent := parent, depth := depth.toNat, role := role, knowledge := .belief b } := by
  unfold belief? at h
  cases hd : depth? depth with
  | error f =>
    rw [hd] at h
    cases h
  | ok d =>
    rw [hd, depth?_eq_ok hd] at h
    simp only [bind, Except.bind] at h
    split at h
    · cases h
      exact ⟨_, rfl, rfl⟩
    · cases h

lemma bare_of_perfect? {s : State} {turn : Option Turn} (h : perfect? parent depth role s turn = .ok n) :
    n.Bare := by
  rw [perfect?_eq_ok h]
  exact ⟨rfl, not_files_of_perfect rfl, rfl, rfl⟩

lemma bare_of_belief? {worlds : StateSet} {isComplete : Bool} {standing : Standing}
    (h : belief? parent depth role worlds isComplete standing = .ok n) : n.Bare := by
  obtain ⟨b, hb, rfl⟩ := belief?_eq_ok h
  refine ⟨rfl, ?_, rfl, rfl⟩
  rintro k ⟨_, hk, o, ho⟩
  cases hk
  simp [hb] at ho

end Node

namespace Arena

variable {R : Type} {a a' a'' : Arena R} {id k : NodeId} {n : Node R} {s : Station} {role : Role}

/-- Where the node with a number stands, if there is one. -/
def station? (a : Arena R) (id : NodeId) : Option Station := (a.find? id).map Node.station

/-- The valuation of the node with a number, if there are one and the other. -/
def valuation? (a : Arena R) (id : NodeId) : Option (Valuation R) := (a.find? id).bind Node.valuation

lemma station?_eq_some : a.station? id = some s ↔ ∃ n, a.find? id = some n ∧ n.station = s :=
  Option.map_eq_some_iff

lemma station?_of_find? (h : a.find? id = some n) : a.station? id = some n.station := by
  rw [station?, h]
  rfl

lemma valuation?_of_find? (h : a.find? id = some n) : a.valuation? id = n.valuation := by
  rw [valuation?, h]
  rfl

/-- The edges of a node lead to its children, and so do its buckets. -/
structure Upright (a : Arena R) (id : NodeId) (n : Node R) : Prop where
  child : ∀ e ∈ n.edgeList, a.station? e.child = some (n.station.child id)
  filed : ∀ k, n.Files k → ∃ e ∈ n.edgeList, e.child = k

/-- All edges lead to children. -/
structure Shaped (a : Arena R) : Prop where
  orderly : a.Orderly
  upright : ∀ id n, a.find? id = some n → a.Upright id n

lemma shaped_empty : (∅ : Arena R).Shaped :=
  ⟨orderly_empty, fun id n hn => by simp [find?_empty] at hn⟩

lemma Shaped.child {e : Edge} (h : a.Shaped) (he : e ∈ a.edgesOf id) :
    ∃ s, a.station? id = some s ∧ a.station? e.child = some (s.child id) := by
  cases hn : a.find? id with
  | none => simp [edgesOf, hn] at he
  | some n =>
    rw [edgesOf_of_find? hn] at he
    exact ⟨n.station, station?_of_find? hn, (h.upright id n hn).child e he⟩

lemma Shaped.closed (h : a.Shaped) : a.Closed := by
  intro id e he
  obtain ⟨s, -, hchild⟩ := h.child he
  obtain ⟨c, hc, -⟩ := station?_eq_some.1 hchild
  exact contains_iff.2 ⟨c, hc⟩

/-! ## What stays -/

/-- Nodes stay where they are, and no valuation changes. -/
structure Grows (a a' : Arena R) : Prop where
  station : ∀ id s, a.station? id = some s → a'.station? id = some s
  valuation : ∀ id, a'.valuation? id = a.valuation? id

lemma Grows.refl : Grows a a := ⟨fun _ _ h => h, fun _ => rfl⟩

lemma Grows.trans (h : Grows a a') (h' : Grows a' a'') : Grows a a'' :=
  ⟨fun id s hs => h'.station id s (h.station id s hs),
    fun id => (h'.valuation id).trans (h.valuation id)⟩

lemma Grows.find? (h : Grows a a') (hn : a.find? id = some n) :
    ∃ n', a'.find? id = some n' ∧ n'.station = n.station :=
  station?_eq_some.1 (h.station id _ (station?_of_find? hn))

lemma Upright.grows (h : a.Upright id n) (hgrows : Grows a a') : a'.Upright id n :=
  ⟨fun e he => hgrows.station _ _ (h.child e he), h.filed⟩

/-- An arena of the same shape, with the same nodes where they were. -/
structure Reshaped (a a' : Arena R) : Prop extends Grows a a' where
  shaped : a'.Shaped

/-- An arena of the same shape, in which no edge has been lost. -/
structure Expanded (a a' : Arena R) : Prop extends Reshaped a a' where
  keeps : ∀ id edges, (a.find? id).bind Node.edges = some edges →
    ∃ edges', (a'.find? id).bind Node.edges = some edges' ∧ ∀ e ∈ edges.toList, e ∈ edges'.toList

lemma Expanded.refl (h : a.Shaped) : Expanded a a := ⟨⟨.refl, h⟩, fun _ edges h => ⟨edges, h, fun _ he => he⟩⟩

lemma Expanded.trans (h : Expanded a a') (h' : Expanded a' a'') : Expanded a a'' := by
  refine ⟨⟨h.toGrows.trans h'.toGrows, h'.shaped⟩, fun id edges hedges => ?_⟩
  obtain ⟨edges', hedges', hsub⟩ := h.keeps id edges hedges
  obtain ⟨edges'', hedges'', hsub'⟩ := h'.keeps id edges' hedges'
  exact ⟨edges'', hedges'', fun e he => hsub' e (hsub e he)⟩

lemma Expanded.edgesOf {e : Edge} (h : Expanded a a') (he : e ∈ a.edgesOf id) : e ∈ a'.edgesOf id := by
  unfold Arena.edgesOf at he ⊢
  cases hedges : (a.find? id).bind Node.edges with
  | none => simp [hedges] at he
  | some edges =>
    obtain ⟨edges', hedges', hsub⟩ := h.keeps id edges hedges
    rw [hedges] at he
    rw [hedges']
    exact hsub e he

lemma Expanded.leads {root : NodeId} (h : Expanded a a') (hleads : a.Leads root id) : a'.Leads root id := by
  induction hleads with
  | refl => exact .refl
  | step _ he ih => exact ih.step (h.edgesOf he)

/-- The shape of an arena and its nodes are kept. -/
def Reshapes (a a' : Arena R) : Prop := a.Shaped → Reshaped a a'

/-- The shape of an arena, its nodes and their edges are kept. -/
def Expands (a a' : Arena R) : Prop := a.Shaped → Expanded a a'

instance : IsPreorder (Arena R) Reshapes where
  refl _ h := ⟨.refl, h⟩
  trans _ _ _ h h' hshaped :=
    have hfirst := h hshaped
    have hsecond := h' hfirst.shaped
    ⟨hfirst.toGrows.trans hsecond.toGrows, hsecond.shaped⟩

instance : IsPreorder (Arena R) Expands where
  refl _ h := .refl h
  trans _ _ _ h h' hshaped := (h hshaped).trans (h' (h hshaped).shaped)

lemma Expands.reshapes (h : Expands a a') : Reshapes a a' := fun hshaped => (h hshaped).toReshaped

/-! ## Changing a node -/

section Change

variable {f g : Node R → Node R}

/-- A node that is changed in place stays where it is, with its valuation, and its edges lead to
children again. -/
structure Retouches (a : Arena R) (id : NodeId) (n n' : Node R) : Prop where
  station : n'.station = n.station
  valuation : n'.valuation = n.valuation
  upright : a.Upright id n'

/-- What comes of changing one node. -/
lemma Shaped.retouch (h : a.Shaped) (horderly : a'.Orderly)
    (hfind : ∀ k, a'.find? k = if k = id then (a.find? id).map f else a.find? k)
    (hf : ∀ n, a.find? id = some n → Retouches a id n (f n)) : Reshaped a a' := by
  have hstations : ∀ k, a'.station? k = a.station? k := by
    intro k
    rw [station?, hfind]
    split
    · rename_i hk
      rw [hk]
      cases hn : a.find? id with
      | none => rw [station?, hn]; rfl
      | some n =>
        rw [station?_of_find? hn, ← (hf n hn).station]
        rfl
    · rfl
  have hgrows : Grows a a' := by
    refine ⟨fun k s hs => (hstations k).trans hs, fun k => ?_⟩
    rw [valuation?, hfind]
    split
    · rename_i hk
      rw [hk]
      cases hn : a.find? id with
      | none => rw [valuation?, hn]; rfl
      | some n =>
        rw [valuation?_of_find? hn, ← (hf n hn).valuation]
        rfl
    · rfl
  refine ⟨hgrows, horderly, fun k m hm => ?_⟩
  rw [hfind] at hm
  split at hm
  · rename_i hk
    obtain ⟨n, hn, rfl⟩ := Option.map_eq_some_iff.1 hm
    exact hk ▸ (hf n hn).upright.grows hgrows
  · exact (h.upright k m hm).grows hgrows

lemma Shaped.update (h : a.Shaped) (hf : ∀ n, a.find? id = some n → Retouches a id n (f n)) :
    Reshaped a (a.update id f) := h.retouch (h.orderly.update f) (fun _ => find?_update f) hf

/-- What comes of changing one node twice, if all is well again after that. -/
lemma Shaped.update_update (h : a.Shaped)
    (hf : ∀ n, a.find? k = some n → Retouches a k n (g (f n))) :
    Reshaped a ((a.update k f).update k g) := by
  refine h.retouch (f := fun n => g (f n)) ((h.orderly.update f).update g) (fun id => ?_) hf
  by_cases hid : id = k
  · simp [hid, Option.map_map, Function.comp_def]
  · simp [hid]

/-- No edge is lost if the changed node keeps its own. -/
lemma Reshaped.expanded (h : Reshaped a a')
    (hfind : ∀ id, a'.find? id = if id = k then (a.find? k).map f else a.find? id)
    (hf : ∀ n edges, a.find? k = some n → n.edges = some edges →
      ∃ edges', (f n).edges = some edges' ∧ ∀ e ∈ edges.toList, e ∈ edges'.toList) : Expanded a a' := by
  refine ⟨h, fun id edges hedges => ?_⟩
  rw [hfind]
  split
  · rename_i hid
    rw [hid] at hedges
    obtain ⟨n, hn, hedges⟩ := Option.bind_eq_some_iff.1 hedges
    rw [hn]
    exact hf n edges hn hedges
  · exact ⟨edges, hedges, fun _ he => he⟩

lemma Shaped.update_expanded (h : a.Shaped) (hf : ∀ n, a.find? id = some n → Retouches a id n (f n))
    (hedges : ∀ n edges, a.find? id = some n → n.edges = some edges →
      ∃ edges', (f n).edges = some edges' ∧ ∀ e ∈ edges.toList, e ∈ edges'.toList) :
    Expanded a (a.update id f) := (h.update hf).expanded (fun _ => find?_update f) hedges

end Change

lemma respects_changeBelief {f : Belief → Belief} (hf : ∀ b, (f b).buckets = b.buckets) :
    Action.Respects Expands (changeBelief id f : Action (Arena R) Unit) := by
  refine Action.respects_modify fun a h => h.update_expanded (fun n hn => ?_) fun n edges hn hedges => ?_
  · have hn := h.upright id n hn
    obtain ⟨parent, depth, role, knowledge, edges, valuation, move⟩ := n
    cases knowledge with
    | perfect s turn => exact ⟨rfl, rfl, hn⟩
    | belief b =>
      refine ⟨rfl, rfl, hn.child, fun k hk => hn.filed k ?_⟩
      obtain ⟨_, hb, o, ho⟩ := hk
      cases hb
      exact ⟨b, rfl, o, (hf b ▸ ho :)⟩
  · obtain ⟨parent, depth, role, knowledge, _, valuation, move⟩ := n
    cases knowledge <;> exact ⟨edges, hedges, fun _ he => he⟩

lemma changeBelief_expanded {f : Belief → Belief} (h : a.Shaped)
    (hrun : changeBelief id f a = .ok ⟨⟩ a') (hf : ∀ b, (f b).buckets = b.buckets) : Expanded a a' :=
  respects_changeBelief hf a ⟨⟩ a' hrun h

/-- Changing what is neither the place of a node nor its valuation, its belief or its edges. -/
lemma respects_change {f : Node R → Node R} (hf : ∀ n, (f n).station = n.station ∧
    (f n).valuation = n.valuation ∧ (f n).knowledge = n.knowledge ∧ (f n).edges = n.edges) :
    Action.Respects Expands (change id f : Action (Arena R) Unit) := by
  refine Action.respects_modify fun a h => h.update_expanded (fun n hn => ?_) fun n edges _ hedges => ?_
  · have hn := h.upright id n hn
    obtain ⟨hstation, hvaluation, hknowledge, hedges⟩ := hf n
    refine ⟨hstation, hvaluation, fun e he => ?_, fun k hk => ?_⟩
    · rw [hstation]
      exact hn.child e (by rwa [Node.edgeList, hedges] at he)
    · rw [Node.Files, hknowledge] at hk
      rw [Node.edgeList, hedges]
      exact hn.filed k hk
  · exact ⟨edges, (hf n).2.2.2.trans hedges, fun _ he => he⟩

/-! ## Adding a node -/

/-- The node that has been added takes a number that was not in use. -/
structure Added (a : Arena R) (k : NodeId) (n : Node R) (a' : Arena R) : Prop where
  none : a.find? k = none
  orderly : a'.Orderly
  find? : ∀ id, a'.find? id = if id = k then some n else a.find? id

lemma Added.self (h : Added a k n a') : a'.find? k = some n := by rw [h.find?, if_pos rfl]

lemma Added.other {m : Node R} (h : Added a k n a') (hm : a.find? id = some m) : a'.find? id = some m := by
  rw [h.find?, if_neg, hm]
  rintro rfl
  rw [h.none] at hm
  cases hm

lemma Orderly.add_eq_ok {q : Except Fault (Node R)} (h : a.Orderly) (hrun : add q a = .ok k a') :
    ∃ n, q = .ok n ∧ Added a k n a' := by
  cases q with
  | error f => cases hrun
  | ok n =>
    obtain ⟨c, b, hadd, hnone, horderly, hfind⟩ := add_yields h n
    rw [hadd] at hrun
    cases hrun
    exact ⟨n, rfl, hnone, horderly, hfind⟩

lemma Added.expanded (hadded : Added a k n a') (h : a.Shaped) (hbare : n.Bare) : Expanded a a' := by
  have hgrows : Grows a a' := by
    refine ⟨fun id s hs => ?_, fun id => ?_⟩
    · obtain ⟨m, hm, hstation⟩ := station?_eq_some.1 hs
      exact station?_eq_some.2 ⟨m, hadded.other hm, hstation⟩
    · rw [valuation?, valuation?, hadded.find?]
      split
      · rename_i hid
        rw [hid, hadded.none]
        exact hbare.valuation
      · rfl
  refine ⟨⟨hgrows, hadded.orderly, fun id m hm => ?_⟩, fun id edges hedges => ?_⟩
  · rw [hadded.find?] at hm
    split at hm
    · cases hm
      refine ⟨fun e he => ?_, fun c hc => absurd hc (hbare.files c)⟩
      rw [Node.edgeList, hbare.edges] at he
      simp at he
    · exact (h.upright id m hm).grows hgrows
  · obtain ⟨m, hm, hedges⟩ := Option.bind_eq_some_iff.1 hedges
    exact ⟨edges, by rw [hadded.other hm]; exact hedges, fun _ he => he⟩

lemma respects_add {q : Except Fault (Node R)} (hq : ∀ n, q = .ok n → n.Bare) :
    Action.Respects Expands (add q : Action (Arena R) NodeId) := by
  intro a k a' hrun h
  obtain ⟨n, hn, hadded⟩ := h.orderly.add_eq_ok hrun
  exact hadded.expanded h (hq n hn)

end Arena

end GameSearch
