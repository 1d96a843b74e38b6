import GameSearch.Proofs.Belief.Soundness
import GameSearch.Proofs.Control
import GameSearch.Proofs.Outcome
import GameSearch.Proofs.Sweep
import GameSearch.Tree.Search

/-!
# Trees of perfect information

A node of perfect information stands for one state.  Its edges are the transitions out of that state, less
those that disagree with the committed move, and each edge has a child of its own for the state that it
leads to.  `Arena.Charted` says so of all nodes of an arena; what is done to a tree keeps it.
-/

namespace GameSearch

namespace Node

variable {R : Type} {u : Upkeep} {a a' : Arena R} {id : NodeId} {n n' n'' : Node R} {s t : State}
  {turn : Turn} {move : Move}

/-- The edges in their order, none if the node was never expanded. -/
def edgeList (n : Node R) : List Edge := (n.edges.getD #[]).toList

/-- The owner knows the state. -/
def Knows (n : Node R) (s : State) : Prop := ∃ turn, n.knowledge = .perfect s turn

lemma Knows.unique (h : n.Knows s) (h' : n.Knows t) : s = t := by
  obtain ⟨turn, h⟩ := h
  obtain ⟨turn', h'⟩ := h'
  rw [h] at h'
  cases h'
  rfl

lemma accepts_of_free (h : n.move = none) (turn : Turn) : n.accepts turn = true := by
  rw [accepts, h]
  rfl

/-- Two nodes differ at most in their edges and valuations. -/
structure Alike (n n' : Node R) : Prop where
  parent : n'.parent = n.parent
  depth : n'.depth = n.depth
  role : n'.role = n.role
  knowledge : n'.knowledge = n.knowledge
  move : n'.move = n.move

lemma Alike.refl (n : Node R) : n.Alike n := ⟨rfl, rfl, rfl, rfl, rfl⟩

lemma Alike.trans (h : n.Alike n') (h' : n'.Alike n'') : n.Alike n'' :=
  ⟨h'.parent.trans h.parent, h'.depth.trans h.depth, h'.role.trans h.role, h'.knowledge.trans h.knowledge,
    h'.move.trans h.move⟩

lemma Alike.knows (h : n.Alike n') (hs : n.Knows s) : n'.Knows s :=
  hs.imp fun _ hknowledge => h.knowledge.trans hknowledge

/-- The child that a transition leads to. -/
def offspring (id : NodeId) (n : Node R) (turn : Turn) (next : State) : Node R where
  parent := some (Int.ofNat id)
  depth := n.depth + 1
  role := n.role
  knowledge := .perfect next (some turn)

/-- A node has an edge for each transition out of its state, unless it disagrees with the committed move,
and a child for each edge. -/
structure Fits (n : Node R) (u : Upkeep) (a : Arena R) (id : NodeId) : Prop where
  out : ∀ s, n.Knows s → n.edges ≠ none → n.edgeList.map (fun e => (e.turn, e.next)) =
    (u.game.transitions s).filter fun step => n.accepts step.1
  key : ∀ e ∈ n.edgeList, e.key = ⟨none, e.turn⟩
  nodup : (n.edgeList.map Edge.child).Nodup
  child : ∀ e ∈ n.edgeList, ∃ c, a.find? e.child = some c ∧ (n.offspring id e.turn e.next).Alike c

lemma fits_of_pristine (h : n.edges = none) : n.Fits u a id := by
  have hnil : n.edgeList = [] := by rw [edgeList, h]; rfl
  exact ⟨fun _ _ hedges => absurd h hedges, by simp [hnil], by simp [hnil], by simp [hnil]⟩

lemma Fits.congr (h : n.Fits u a id) (hbelow : ∀ e ∈ n.edgeList, ∀ c, a.find? e.child = some c →
    ∃ c', a'.find? e.child = some c' ∧ c.Alike c') : n.Fits u a' id := by
  refine ⟨h.out, h.key, h.nodup, fun e he => ?_⟩
  obtain ⟨c, hc, halike⟩ := h.child e he
  obtain ⟨c', hc', halike'⟩ := hbelow e he c hc
  exact ⟨c', hc', halike.trans halike'⟩

lemma Fits.mem_transitions (h : n.Fits u a id) (hs : n.Knows s) {e : Edge} (he : e ∈ n.edgeList) :
    (e.turn, e.next) ∈ u.game.transitions s := by
  have hedges : n.edges ≠ none := by
    intro hnone
    rw [edgeList, hnone] at he
    cases he
  have hin : (e.turn, e.next) ∈ n.edgeList.map fun e => (e.turn, e.next) := List.mem_map_of_mem he
  rw [h.out s hs hedges] at hin
  exact List.mem_of_mem_filter hin

lemma isExpanded_of_knows (h : n.Knows s) : n.isExpanded = n.edges.isSome := by
  obtain ⟨turn, h⟩ := h
  rw [isExpanded, h, Bool.and_true]

lemma perfect?_yields (parent : Option Int) {depth : Int} (hdepth : 0 ≤ depth) (role : Role) (s : State)
    (turn : Option Turn) : (perfect? parent depth role s turn : Except Fault (Node R)) =
      .ok ⟨parent, depth.toNat, role, .perfect s turn, none, none, none⟩ := by
  simp [perfect?, depth?, Int.not_lt.2 hdepth, bind, Except.bind, pure, Except.pure]

/-- A node whose owner is committed to a move. -/
def committed (n : Node R) (move : Move) : Node R := { n with move := some move }

def detached (n : Node R) : Node R := { n with parent := none }

/-- A node less the edges that disagree with the committed move. -/
def trimmed (n : Node R) : Node R :=
  { n with edges := n.edges.map fun edges => edges.filter fun e => n.accepts e.turn }

lemma edgeList_trimmed : n.trimmed.edgeList = n.edgeList.filter fun e => n.accepts e.turn := by
  cases h : n.edges <;> simp [edgeList, trimmed, h]

lemma edges_trimmed_eq_none_iff : n.trimmed.edges = none ↔ n.edges = none := by
  simp [trimmed]

/-- Trimming a node that has the edge of every transition keeps it as it should be. -/
lemma fits_trimmed (hs : n.Knows s) (hout : n.edges ≠ none →
      n.edgeList.map (fun e => (e.turn, e.next)) = u.game.transitions s)
    (hkey : ∀ e ∈ n.edgeList, e.key = ⟨none, e.turn⟩) (hnodup : (n.edgeList.map Edge.child).Nodup)
    (hchild : ∀ e ∈ n.edgeList, ∃ c, a.find? e.child = some c ∧ (n.offspring id e.turn e.next).Alike c) :
    n.trimmed.Fits u a id := by
  have hmem : ∀ e ∈ n.trimmed.edgeList, e ∈ n.edgeList := fun e he => by
    rw [edgeList_trimmed] at he
    exact List.mem_of_mem_filter he
  refine ⟨fun t ht hedges => ?_, fun e he => hkey e (hmem e he), ?_, fun e he => hchild e (hmem e he)⟩
  · rw [Knows.unique (s := t) (t := s) ht hs, edgeList_trimmed, ← hout (edges_trimmed_eq_none_iff.not.1 hedges),
      List.filter_map]
    rfl
  · rw [edgeList_trimmed]
    exact hnodup.sublist (List.filter_sublist.map _)

/-- Trimming changes nothing where it has been done. -/
lemma Fits.trimmed_eq (h : n.Fits u a id) (hs : n.Knows s) : n.trimmed = n := by
  cases hedges : n.edges with
  | none =>
    rw [trimmed, hedges, Option.map_none, ← hedges]
  | some edges =>
    have hall : ∀ e ∈ n.edgeList, n.accepts e.turn = true := by
      intro e he
      have hin : (e.turn, e.next) ∈ n.edgeList.map fun e => (e.turn, e.next) := List.mem_map_of_mem he
      rw [h.out s hs (by simp [hedges])] at hin
      exact (List.mem_filter.1 hin).2
    have hfilter : (edges.filter fun e => n.accepts e.turn) = edges := by
      refine Array.filter_eq_self.2 fun e he => hall e ?_
      rw [edgeList, hedges]
      exact he.val
    rw [trimmed, hedges, Option.map_some, hfilter, ← hedges]

end Node

namespace Arena

variable {R : Type} {u : Upkeep} {a a' b : Arena R} {id k x : NodeId} {n n' m : Node R} {s t : State}
  {e : Edge} {turn : Turn}

lemma edgesOf_of_find? (h : a.find? id = some n) : a.edgesOf id = n.edgeList := by
  rw [edgesOf, h]
  rfl

lemma state?_of_knows (hn : a.find? id = some n) (hs : n.Knows s) : a.state? id = .ok s := by
  obtain ⟨turn, hs⟩ := hs
  simp [state?, node?, hn, hs, bind, Except.bind, pure, Except.pure]

/-- Every node is one of perfect information about a state of the game, and is as it should be. -/
structure Charted (u : Upkeep) (a : Arena R) : Prop where
  orderly : a.Orderly
  known : ∀ id n, a.find? id = some n → ∃ s, n.Knows s ∧ u.states s
  fits : ∀ id n, a.find? id = some n → n.Fits u a id

lemma charted_empty : (∅ : Arena R).Charted u :=
  ⟨orderly_empty, fun _ _ h => by simp [find?_empty] at h, fun _ _ h => by simp [find?_empty] at h⟩

/-- An edge leads to a child of the node. -/
lemma Charted.child (h : a.Charted u) (he : e ∈ a.edgesOf id) : ∃ n c, a.find? id = some n ∧
    a.find? e.child = some c ∧ (n.offspring id e.turn e.next).Alike c := by
  cases hn : a.find? id with
  | none => simp [edgesOf, hn] at he
  | some n =>
    rw [edgesOf_of_find? hn] at he
    obtain ⟨c, hc, halike⟩ := (h.fits id n hn).child e he
    exact ⟨n, c, rfl, hc, halike⟩

lemma Charted.closed (h : a.Charted u) : a.Closed := fun id e he => by
  obtain ⟨n, c, -, hc, -⟩ := h.child he
  exact contains_iff.2 ⟨c, hc⟩

lemma Charted.not_root (h : a.Charted u) (hn : a.find? id = some n) (hroot : n.parent = none)
    (he : e ∈ a.edgesOf x) : e.child ≠ id := by
  obtain ⟨m, c, -, hc, halike⟩ := h.child he
  rintro rfl
  rw [hn, Option.some.injEq] at hc
  have hparent := halike.parent
  rw [← hc, hroot] at hparent
  cases hparent

/-- One node is put in the place of another one, or in an empty slot. -/
lemma Charted.put (h : a.Charted u) (horderly : a'.Orderly)
    (hfind : ∀ x, a'.find? x = if x = id then some n' else a.find? x) (hs : n'.Knows s) (hstate : u.states s)
    (hfits : n'.Fits u a' id) (habove : ∀ x, x ≠ id → ∀ e ∈ a.edgesOf x, e.child = id →
      ∃ n, a.find? id = some n ∧ n.Alike n') : a'.Charted u := by
  refine ⟨horderly, fun x m hm => ?_, fun x m hm => ?_⟩ <;> rw [hfind] at hm <;> split at hm
  · cases hm
    exact ⟨s, hs, hstate⟩
  · exact h.known x m hm
  · rename_i hx
    cases hm
    exact hx ▸ hfits
  · rename_i hx
    refine (h.fits x m hm).congr fun e he c hc => ?_
    rw [hfind]
    split
    · rename_i hchild
      obtain ⟨n, hn, halike⟩ := habove x hx e (edgesOf_of_find? hm ▸ he) hchild
      rw [hchild, hn, Option.some.injEq] at hc
      exact ⟨n', rfl, hc ▸ halike⟩
    · exact ⟨c, hc, .refl c⟩

lemma Charted.add (h : a.Charted u) (hs : n.Knows s) (hstate : u.states s) (hedges : n.edges = none) :
    ∃ c a', add (.ok n) a = .ok c a' ∧ a.find? c = none ∧ a'.Charted u ∧ a'.find? c = some n ∧
      ∀ x m, a.find? x = some m → a'.find? x = some m := by
  obtain ⟨c, a', hrun, hnone, horderly, hfind⟩ := add_yields h.orderly n
  refine ⟨c, a', hrun, hnone, ?_, by rw [hfind, if_pos rfl], fun x m hm => ?_⟩
  · refine h.put horderly hfind hs hstate (Node.fits_of_pristine hedges) fun x _ e he hchild => ?_
    obtain ⟨-, d, -, hd, -⟩ := h.child he
    rw [hchild, hnone] at hd
    cases hd
  · rw [hfind, if_neg]
    · exact hm
    · rintro rfl
      rw [hnone] at hm
      cases hm

/-! ## Expansion -/

lemma trimPerfect_run : trimPerfect id a = .ok ⟨⟩ (a.update id Node.trimmed) := by
  have hchange : ∀ f : Node R → Node R, (∀ n, f n = n.trimmed) →
      change id f a = .ok ⟨⟩ (a.update id Node.trimmed) := by
    intro f hf
    rw [funext hf, change_run]
  refine hchange _ fun n => ?_
  obtain ⟨parent, depth, role, knowledge, edges, valuation, move⟩ := n
  cases edges with
  | none => rfl
  | some edges =>
    cases move with
    | none =>
      have hall : edges.filter (fun _ => true) = edges := Array.filter_eq_self.2 fun _ _ => rfl
      simp [Node.trimmed, Node.accepts, hall]
    | some move => rfl

/-- A node that has the edge of every transition is put in the place of another one and trimmed. -/
lemma Charted.retouch {f : Node R → Node R} (h : a.Charted u) (hn : a.find? id = some n)
    (hs : (f n).Knows s) (hstate : u.states s) (hdepth : (f n).depth = n.depth)
    (hout : (f n).edges ≠ none → (f n).edgeList.map (fun e => (e.turn, e.next)) = u.game.transitions s)
    (hkey : ∀ e ∈ (f n).edgeList, e.key = ⟨none, e.turn⟩) (hnodup : ((f n).edgeList.map Edge.child).Nodup)
    (hchild : ∀ e ∈ (f n).edgeList, ∃ c, a.find? e.child = some c ∧
      ((f n).offspring id e.turn e.next).Alike c)
    (habove : n.parent = none ∨ n.Alike (f n)) :
    ((a.update id f).update id Node.trimmed).Charted u ∧
      ((a.update id f).update id Node.trimmed).find? id = some (f n).trimmed ∧
      ∀ x, x ≠ id → ((a.update id f).update id Node.trimmed).find? x = a.find? x := by
  have hfind : ∀ x, ((a.update id f).update id Node.trimmed).find? x =
      if x = id then some (f n).trimmed else a.find? x := by
    intro x
    by_cases hx : x = id
    · simp [hx, hn]
    · simp [hx]
  refine ⟨?_, by rw [hfind, if_pos rfl], fun x hx => by rw [hfind, if_neg hx]⟩
  refine h.put ((h.orderly.update f).update _) hfind (s := s) hs hstate ?_ fun x hx e he heid => ?_
  · refine Node.fits_trimmed hs hout hkey hnodup fun e he => ?_
    obtain ⟨c, hc, halike⟩ := hchild e he
    refine ⟨c, ?_, halike⟩
    rw [hfind, if_neg, hc]
    intro heid
    rw [heid, hn, Option.some.injEq] at hc
    have hchild := halike.depth
    rw [← hc, Node.offspring, hdepth] at hchild
    exact absurd hchild (Nat.ne_of_lt (Nat.lt_succ_self _))
  · rcases habove with hroot | halike
    · exact absurd heid (h.not_root hn hroot he)
    · exact ⟨n, hn, halike.parent, halike.depth, halike.role, halike.knowledge, halike.move⟩

/-- The children of a node are being added: so far those for the given transitions. -/
structure Branching (u : Upkeep) (a : Arena R) (id : NodeId) (n : Node R) (before : List (Turn × State))
    (edges : List Edge) (b : Arena R) : Prop where
  charted : b.Charted u
  keeps : ∀ x m, a.find? x = some m → b.find? x = some m
  out : edges.map (fun e => (e.turn, e.next)) = before
  key : ∀ e ∈ edges, e.key = ⟨none, e.turn⟩
  nodup : (edges.map Edge.child).Nodup
  child : ∀ e ∈ edges, b.find? e.child = some (n.offspring id e.turn e.next)

lemma Branching.addPerfectChild {before : List (Turn × State)} {edges : List Edge}
    (h : Branching u a id n before edges b) (hstate : u.states t) (turn : Turn) :
    ∃ e b', addPerfectChild id n.depth n.role turn t b = .ok e b' ∧
      Branching u a id n (before ++ [(turn, t)]) (edges ++ [e]) b' := by
  obtain ⟨c, b', hadd, hnone, hcharted, hc, hkeeps⟩ := @Charted.add _ _ _ (n.offspring id turn t) _ h.charted
    ⟨some turn, rfl⟩ hstate rfl
  refine ⟨⟨⟨none, turn⟩, turn, t, c⟩, b', ?_, hcharted, fun x m hm => hkeeps x m (h.keeps x m hm), ?_, ?_, ?_, ?_⟩
  · have hnode := Node.perfect?_yields (R := R) (some (Int.ofNat id)) (Int.natCast_nonneg (n.depth + 1)) n.role t
      (some turn)
    rw [Arena.addPerfectChild, Action.bind_of_ok (a := c) (t := b')]
    · rfl
    · rw [← hadd]
      exact congrArg (fun n => Arena.add n b) hnode
  · rw [List.map_append, h.out]
    rfl
  · intro e he
    rcases List.mem_append.1 he with he | he
    · exact h.key e he
    · rw [List.mem_singleton.1 he]
  · rw [List.map_append, List.nodup_append]
    refine ⟨h.nodup, List.nodup_singleton _, fun x hx y hy hxy => ?_⟩
    obtain ⟨e, he, rfl⟩ := List.mem_map.1 hx
    have hchild := h.child e he
    rw [hxy, List.mem_singleton.1 hy, hnone] at hchild
    cases hchild
  · intro e he
    rcases List.mem_append.1 he with he | he
    · exact hkeeps _ _ (h.child e he)
    · rw [List.mem_singleton.1 he]
      exact hc

/-- A node that is expanded gets an edge for each transition that does not disagree with the committed
move, unless it has been expanded before. -/
theorem expandPerfect_yields (h : a.Charted u) (hn : a.find? id = some n) :
    ∃ a' edges, expandPerfect u.game id a = .ok ⟨⟩ a' ∧ a'.Charted u ∧
      a'.find? id = some { n with edges := some edges } ∧
      ∀ x m, x ≠ id → a.find? x = some m → a'.find? x = some m := by
  obtain ⟨s, hs, hstate⟩ := h.known id n hn
  unfold expandPerfect
  rw [Action.bind_of_ok (Action.get_run a), Action.bind_of_ok (Action.lift_of_ok (state?_of_knows hn hs) a),
    Action.bind_of_ok (node_of_find? hn)]
  cases hedges : n.edges with
  | some edges =>
    refine ⟨a, edges, ?_, h, ?_, fun x m _ hm => hm⟩
    · rw [if_pos (by rw [Node.isExpanded_of_knows hs, hedges]; rfl)]
      rfl
    · rw [← hedges]
      exact hn
  | none =>
    rw [if_neg (by rw [Node.isExpanded_of_knows hs, hedges]; simp),
      Action.bind_of_ok (Action.lift_of_ok (u.answers.successors? hstate) a)]
    have hmap := @Action.ensures_mapM _ _ _ (fun _ => True) (u.game.transitions s)
      (fun step => addPerfectChild id n.depth n.role step.1 step.2) (Branching u a id n) (s := a)
      (by
        intro before step after edges b hlist hb
        have hstep : step ∈ u.game.transitions s := by simp [hlist]
        obtain ⟨e, b', hrun, hb'⟩ := hb.addPerfectChild (u.answers.closed s hstate step hstep) step.1
        exact Action.ensures_of_ok hrun hb')
      ⟨h, fun _ _ hm => hm, rfl, by simp, by simp, by simp⟩
    obtain ⟨edges, b, hrun, hb⟩ := hmap.yields
    have hself : b.find? id = some n := hb.keeps id n hn
    obtain ⟨hcharted, hfind, hother⟩ := @Charted.retouch _ _ _ _ _ _ (fun n => { n with edges := some edges.toArray })
      hb.charted hself hs hstate rfl (fun _ => hb.out) hb.key hb.nodup
      (fun e he => ⟨_, hb.child e he, .refl _⟩) (.inr ⟨rfl, rfl, rfl, rfl, rfl⟩)
    refine ⟨_, _, ?_, hcharted, hfind, fun x m hx hm => ?_⟩
    · exact (Action.bind_of_ok hrun).trans ((Action.bind_of_ok (change_run _)).trans trimPerfect_run)
    · rw [hother x hx]
      exact hb.keeps x m hm

lemma expand_of_knows {game : Game} (hn : a.find? id = some n) (hs : n.Knows s) :
    expand game id a = expandPerfect game id a := by
  obtain ⟨turn, hs⟩ := hs
  rw [expand, Action.bind_of_ok (node_of_find? hn), hs]

/-! ## Commitment -/

/-- Trimming a node as it should be changes nothing. -/
lemma Charted.trimPerfect (h : a.Charted u) (hn : a.find? id = some n) :
    ∃ a', Arena.trimPerfect id a = .ok ⟨⟩ a' ∧ a'.Charted u ∧ ∀ x, a'.find? x = a.find? x := by
  obtain ⟨s, hs, hstate⟩ := h.known id n hn
  have hfind : ∀ x, (a.update id Node.trimmed).find? x = a.find? x := by
    intro x
    rw [find?_update]
    split
    · rename_i hx
      rw [hx, hn, Option.map_some, (h.fits id n hn).trimmed_eq hs]
    · rfl
  refine ⟨_, trimPerfect_run, ⟨h.orderly.update _, fun x m hm => ?_, fun x m hm => ?_⟩, hfind⟩ <;> rw [hfind] at hm
  · exact h.known x m hm
  · exact (h.fits x m hm).congr fun e _ c hc => ⟨c, (hfind _).trans hc, .refl c⟩

lemma trim_run (hn : a.find? id = some n) (hs : n.Knows s) :
    trim id a = .ok ⟨⟩ (a.update id Node.trimmed) := by
  obtain ⟨turn, hs⟩ := hs
  rw [trim, Action.bind_of_ok (node_of_find? hn), hs]
  exact trimPerfect_run

/-- A root that is committed for the first time is left with the edges by the move. -/
theorem Charted.commit (h : a.Charted u) (hn : a.find? id = some n) (hroot : n.parent = none)
    (hfree : n.move = none) (move : Move) : ∃ a₁ a₂, Arena.commit id move a = .ok ⟨⟩ a₁ ∧ trim id a₁ = .ok ⟨⟩ a₂ ∧
      a₂.Charted u ∧ a₂.find? id = some (n.committed move).trimmed ∧ ∀ x, x ≠ id → a₂.find? x = a.find? x := by
  obtain ⟨s, hs, hstate⟩ := h.known id n hn
  have hfits := h.fits id n hn
  have hself : (a.update id fun n => n.committed move).find? id = some (n.committed move) := by simp [hn]
  refine ⟨_, _, ?_, trim_run hself hs, ?_⟩
  · rw [Arena.commit, Action.bind_of_ok (node_of_find? hn)]
    rfl
  · refine h.retouch hn (f := fun n => n.committed move) hs hstate rfl (fun hedges => ?_) hfits.key hfits.nodup
      hfits.child (.inl hroot)
    exact (hfits.out s hs hedges).trans (List.filter_eq_self.2 fun step _ => Node.accepts_of_free hfree step.1)

/-- What the search for an only child comes to. -/
lemma soleChild?_of_find? (hn : a.find? id = some n) :
    a.soleChild? id = .ok id ∨ ∃ e ∈ n.edgeList, a.soleChild? id = .ok e.child ∧ n.edges ≠ none ∧
      ∀ e' ∈ n.edgeList, e'.child = e.child := by
  rw [soleChild?, node?, hn]
  simp only [bind, Except.bind]
  split
  · rename_i child hexpanded hchildren
    have hmem : ∀ k, k ∈ n.edgeList.map Edge.child ↔ k = child := fun k => by
      rw [← List.mem_eraseDups, ← List.mem_singleton, ← hchildren]
      rfl
    obtain ⟨e, he, rfl⟩ := List.mem_map.1 ((hmem child).2 rfl)
    refine .inr ⟨e, he, rfl, fun hnone => ?_, fun e' he' => (hmem _).1 (List.mem_map_of_mem he')⟩
    simp [Node.isExpanded, hnone] at hexpanded
  · exact .inl rfl

/-! ## New roots -/

/-- Edges lead down. -/
lemma Charted.depth_le (h : a.Charted u) (hn : a.find? id = some n) (hx : a.Leads id x) :
    ∃ m, a.find? x = some m ∧ n.depth ≤ m.depth := by
  induction hx with
  | refl => exact ⟨n, hn, Nat.le_refl _⟩
  | step _ he ih =>
    obtain ⟨m, hm, hle⟩ := ih
    obtain ⟨m', c, hm', hc, halike⟩ := h.child he
    rw [hm, Option.some.injEq] at hm'
    subst hm'
    have hdepth : c.depth = m.depth + 1 := halike.depth
    exact ⟨c, hc, by omega⟩

/-- A node that is made the only root stays as it is but for its parent. -/
theorem Charted.reroot (h : a.Charted u) (hn : a.find? id = some n) :
    ∃ a', Arena.reroot id a = .ok ⟨⟩ a' ∧ a'.Charted u ∧ a'.find? id = some n.detached := by
  obtain ⟨a', hrun, horderly, hself, hother⟩ := reroot_yields h.orderly h.closed hn
  have hfind : ∀ x m, x ≠ id → a'.find? x = some m → a.find? x = some m ∧ a.Leads id x := by
    intro x m hx hm
    by_cases hleads : a.Leads id x
    · exact ⟨((hother x hx).1 hleads).symm.trans hm, hleads⟩
    · rw [(hother x hx).2 hleads] at hm
      cases hm
  -- An edge from a node that is kept leads below the root.
  have hbelow : ∀ x m, a.find? x = some m → a.Leads id x → ∀ e ∈ m.edgeList, ∀ c,
      a.find? e.child = some c → ∃ c', a'.find? e.child = some c' ∧ c.Alike c' := by
    intro x m hm hleads e he c hc
    obtain ⟨m', hm', hle⟩ := h.depth_le hn hleads
    rw [hm, Option.some.injEq] at hm'
    subst hm'
    have he' : e ∈ a.edgesOf x := edgesOf_of_find? hm ▸ he
    refine ⟨c, ?_, .refl c⟩
    rw [(hother e.child ?_).1 (hleads.step he'), hc]
    intro heid
    obtain ⟨d, hd, halike⟩ := (h.fits x m hm).child e he
    rw [heid, hn, Option.some.injEq] at hd
    have hdepth : n.depth = m.depth + 1 := hd ▸ halike.depth
    omega
  refine ⟨a', hrun, ⟨horderly, fun x m hm => ?_, fun x m hm => ?_⟩, hself⟩ <;> by_cases hx : x = id
  · rw [hx, hself, Option.some.injEq] at hm
    exact hm ▸ h.known id n hn
  · exact h.known x m (hfind x m hx hm).1
  · rw [hx, hself, Option.some.injEq] at hm
    have hfits := (h.fits id n hn).congr (hbelow id n hn .refl)
    rw [hx, ← hm]
    exact ⟨hfits.out, hfits.key, hfits.nodup, hfits.child⟩
  · obtain ⟨hm, hleads⟩ := hfind x m hx hm
    exact (h.fits x m hm).congr (hbelow x m hm hleads)

end Arena

end GameSearch
