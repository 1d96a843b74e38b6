import Mathlib.Algebra.BigOperators.Group.Finset.Basic
import GameSearch.Proofs.Tree.Rooting

/-!
# Playouts of a tree of perfect information

The first simulation that reaches a node expands it and ends there.  Each later one goes on to a child,
unless there is none, so that the node has had one playout more than its children together.  This leaves
out nodes whose owner is committed to a move, since they may have lost children.
-/

namespace GameSearch

namespace Node

variable {R : Type} {n n' n'' : Node R}

/-- A node of perfect information that no simulation has reached. -/
structure Pristine (n : Node R) : Prop where
  perfect : n.IsPerfect
  edges : n.edges = none
  valuation : n.valuation = none

/-- What may become of a node between simulations: it keeps its edges unless its owner is committed to a
move. -/
structure Becomes (n n' : Node R) : Prop where
  perfect : n.IsPerfect → n'.IsPerfect
  valuation : n'.valuation = n.valuation
  edges : n'.edges = none ↔ n.edges = none
  free : n'.move = none → n.move = none ∧ n'.edges = n.edges

lemma Becomes.refl : n.Becomes n := ⟨id, rfl, Iff.rfl, fun h => ⟨h, rfl⟩⟩

lemma Becomes.trans (h : n.Becomes n') (h' : n'.Becomes n'') : n.Becomes n'' := by
  refine ⟨fun hn => h'.perfect (h.perfect hn), h'.valuation.trans h.valuation, h'.edges.trans h.edges,
    fun hfree => ?_⟩
  obtain ⟨hfree', hedges⟩ := h'.free hfree
  obtain ⟨hfree'', hedges'⟩ := h.free hfree'
  exact ⟨hfree'', hedges.trans hedges'⟩

lemma Pristine.becomes (h : n.Pristine) (h' : n.Becomes n') : n'.Pristine :=
  ⟨h'.perfect h.perfect, h'.edges.2 h.edges, h'.valuation.trans h.valuation⟩

lemma Bare.pristine (h : n.Bare) (hperfect : n.IsPerfect) : n.Pristine := ⟨hperfect, h.edges, h.valuation⟩

lemma becomes_trimmed : n.Becomes n.trimmed := by
  refine ⟨fun h => h, rfl, ?_, fun hfree => ⟨hfree, ?_⟩⟩
  · unfold trimmed
    cases n.edges <;> simp
  · exact congrArg Node.edges (trimmed_of_free (n := n) hfree)

lemma becomes_detached : n.Becomes n.detached := ⟨fun h => h, rfl, Iff.rfl, fun hfree => ⟨hfree, rfl⟩⟩

lemma becomes_committed (move : Move) : n.Becomes { n with move := some move } :=
  ⟨fun h => h, rfl, Iff.rfl, fun hfree => by cases hfree⟩

lemma IsPerfect.isExpanded (h : n.IsPerfect) : n.isExpanded = n.edges.isSome := by
  obtain ⟨s, hs⟩ := h
  exact isExpanded_of_knows hs

lemma mem_children {k : NodeId} : k ∈ n.children ↔ ∃ e ∈ n.edgeList, e.child = k := by
  simp [children, edgeList]

end Node

namespace Arena

variable {R : Type} {a a' a'' b : Arena R} {id k root leaf : NodeId} {n : Node R} {game : Game}
  {role : Role} {ply : Int} {view : View}

/-- Each node has had one playout more than its children together. -/
structure Balanced (a : Arena R) : Prop where
  perfect : ∀ id n, a.find? id = some n → n.IsPerfect
  pristine : ∀ id n, a.find? id = some n → n.edges = none → n.valuation = none
  sum : ∀ id n, a.find? id = some n → n.move = none → n.isExpanded = true → n.isTerminal = false →
    a.playouts id = ∑ k ∈ n.children.toFinset, a.playouts k + 1

lemma Added.balanced (h : Added ∅ k n a) (hn : n.Pristine) : a.Balanced := by
  have hnode : ∀ id m, a.find? id = some m → m = n := by
    intro id m hm
    rw [h.find?] at hm
    split at hm
    · exact (Option.some.inj hm).symm
    · simp [find?_empty] at hm
  refine ⟨fun id m hm => hnode id m hm ▸ hn.perfect, fun id m hm _ => hnode id m hm ▸ hn.valuation,
    fun id m hm _ hfull => ?_⟩
  rw [hnode id m hm, hn.perfect.isExpanded, hn.edges] at hfull
  cases hfull

/-! ## Between simulations -/

/-- Each node has become what it is, or it is new. -/
def Renews (a a' : Arena R) : Prop := ∀ id n', a'.find? id = some n' →
  n'.Pristine ∨ ∃ n, a.find? id = some n ∧ n.Becomes n'

lemma Renews.refl : Renews a a := fun _ n hn => .inr ⟨n, hn, .refl⟩

lemma Renews.trans (h : Renews a a') (h' : Renews a' a'') : Renews a a'' := by
  intro id n'' hn''
  rcases h' id n'' hn'' with hnew | ⟨n', hn', hbecomes'⟩
  · exact .inl hnew
  · rcases h id n' hn' with hnew | ⟨n, hn, hbecomes⟩
    · exact .inl (hnew.becomes hbecomes')
    · exact .inr ⟨n, hn, hbecomes.trans hbecomes'⟩

lemma Renews.perfect (h : Renews a a') (hperfect : ∀ id n, a.find? id = some n → n.IsPerfect) (id : NodeId)
    (n' : Node R) (hn' : a'.find? id = some n') : n'.IsPerfect := by
  rcases h id n' hn' with hnew | ⟨n, hn, hbecomes⟩
  · exact hnew.perfect
  · exact hbecomes.perfect (hperfect id n hn)

lemma Inherits.playouts (h : Inherits a a') (hk : a'.contains k = true) : a'.playouts k = a.playouts k := by
  obtain ⟨n, hn⟩ := contains_iff.1 hk
  rw [Arena.playouts, Arena.playouts, valuation?_of_find? hn, h k n hn]

/-- Between simulations the balance is kept. -/
theorem Balanced.renew (h : a.Balanced) (hshaped : a'.Shaped) (hinherits : Inherits a a')
    (hrenews : Renews a a') : a'.Balanced := by
  refine ⟨hrenews.perfect h.perfect, fun id n' hn' hnone => ?_, fun id n' hn' hfree hfull hmore => ?_⟩
  · rcases hrenews id n' hn' with hnew | ⟨n, hn, hbecomes⟩
    · exact hnew.valuation
    · rw [hbecomes.valuation, h.pristine id n hn (hbecomes.edges.1 hnone)]
  · rcases hrenews id n' hn' with hnew | ⟨n, hn, hbecomes⟩
    · rw [hnew.perfect.isExpanded, hnew.edges] at hfull
      cases hfull
    · obtain ⟨hfree', hedges⟩ := hbecomes.free hfree
      have hperfect := h.perfect id n hn
      have hexpanded : n'.isExpanded = n.isExpanded := by
        rw [hperfect.isExpanded, (hbecomes.perfect hperfect).isExpanded, hedges]
      have hchildren : n'.children = n.children := by rw [Node.children, hedges, Node.children]
      have hterminal : n'.isTerminal = n.isTerminal := by
        rw [Node.isTerminal, hexpanded, hedges, Node.isTerminal]
      rw [hinherits.playouts (contains_iff.2 ⟨n', hn'⟩), hchildren,
        h.sum id n hn hfree' (hexpanded ▸ hfull) (hterminal ▸ hmore)]
      congr 1
      refine Finset.sum_congr rfl fun k hk => (hinherits.playouts ?_).symm
      rw [List.mem_toFinset, ← hchildren, Node.mem_children] at hk
      obtain ⟨e, he, rfl⟩ := hk
      exact hshaped.closed id e (edgesOf_of_find? hn' ▸ he)

lemma renews_update {f : Node R → Node R} (hf : ∀ n : Node R, n.Becomes (f n)) : Renews a (a.update id f) := by
  intro k n' hn'
  rw [find?_update] at hn'
  split at hn'
  · rename_i hk
    obtain ⟨n, hn, rfl⟩ := Option.map_eq_some_iff.1 hn'
    exact .inr ⟨n, hk ▸ hn, hf n⟩
  · exact .inr ⟨n', hn', .refl⟩

lemma Rerooted.renews (h : Rerooted a k a') : Renews a a' := by
  intro id n' hn'
  by_cases hid : id = k
  · obtain ⟨n, hn, hn''⟩ := h.root
    rw [hid, hn'', Option.some.injEq] at hn'
    exact .inr ⟨n, hid ▸ hn, hn' ▸ Node.becomes_detached⟩
  · exact .inr ⟨n', h.other id n' hid hn', .refl⟩

lemma Added.renews (h : Added a k n a') (hn : n.Pristine) : Renews a a' := by
  intro id m hm
  rw [h.find?] at hm
  split at hm
  · exact .inl (Option.some.inj hm ▸ hn)
  · exact .inr ⟨m, hm, .refl⟩

lemma pristine_of_perfect? {parent : Option Int} {depth : Int} {s : State} {turn : Option Turn}
    (h : Node.perfect? parent depth role s turn = .ok n) : n.Pristine :=
  (Node.bare_of_perfect? h).pristine ⟨s, turn, by rw [Node.perfect?_eq_ok h]⟩

lemma commit_renews {move : Move} (hrun : commit id move a = .ok ⟨⟩ a') : Renews a a' := by
  obtain ⟨n, a₁, hnode, hrest⟩ := Action.bind_eq_ok.1 hrun
  obtain ⟨-, rfl⟩ := node_eq_ok.1 hnode
  cases hrest
  exact renews_update fun n => Node.becomes_committed (n := n) move

lemma trim_renews (hperfect : ∀ id n, a.find? id = some n → n.IsPerfect) (hrun : trim id a = .ok ⟨⟩ a') :
    Renews a a' := by
  obtain ⟨n, a₁, hnode, hrest⟩ := Action.bind_eq_ok.1 hrun
  obtain ⟨hn, rfl⟩ := node_eq_ok.1 hnode
  obtain ⟨s, turn, hknowledge⟩ := hperfect id n hn
  rw [hknowledge] at hrest
  cases trimPerfect_run.symm.trans hrest
  exact renews_update fun _ => Node.becomes_trimmed

/-- Following a development adds nodes that have never been expanded. -/
lemma followPerfect_renews {inTree : Bool} {depth : Nat} {d : Development} (h : a.Shaped)
    (hrun : followPerfect role id inTree depth d a = .ok k a') : Renews a a' := by
  induction d generalizing a id inTree depth with
  | nil =>
    cases hrun
    exact .refl
  | cons first rest ih =>
    obtain ⟨s, turn⟩ := first
    cases turn with
    | none =>
      cases hrun
      exact .refl
    | some turn =>
      cases rest with
      | nil =>
        cases hrun
        exact .refl
      | cons step rest =>
        rw [followPerfect, Action.bind_of_ok (Action.get_run a)] at hrun
        cases hedge : if inTree then a.edgeFor? id turn else none with
        | some e =>
          rw [hedge] at hrun
          exact ih h hrun
        | none =>
          rw [hedge] at hrun
          obtain ⟨next, a₁, hadd, hrest⟩ := Action.bind_eq_ok.1 hrun
          obtain ⟨n, hn, hadded⟩ := h.orderly.add_eq_ok hadd
          have hshaped := (hadded.expanded h (Node.bare_of_perfect? hn)).shaped
          exact (hadded.renews (pristine_of_perfect? hn)).trans (ih hshaped hrest)

lemma developPerfect_renews (h : a.Shaped) (hrun : developPerfect game id ply view a = .ok k a') :
    Renews a a' := by
  rw [developPerfect, Action.bind_of_ok (Action.get_run a)] at hrun
  obtain ⟨s, hs, h₁⟩ := Action.lift_bind_eq_ok.1 hrun
  obtain ⟨n, turn, hn, -⟩ := state?_eq_ok.1 hs
  rw [Action.bind_of_ok (node_of_find? hn)] at h₁
  simp only at h₁
  split at h₁
  · obtain ⟨_, _, hthrow, -⟩ := Action.bind_eq_ok.1 h₁
    cases hthrow
  · split at h₁
    · obtain ⟨shown, -, h₂⟩ := Action.lift_bind_eq_ok.1 h₁
      split at h₂
      · obtain ⟨_, _, hthrow, -⟩ := Action.bind_eq_ok.1 h₂
        cases hthrow
      · rw [Action.bind_of_ok trimPerfect_run] at h₂
        cases h₂
        exact renews_update fun _ => Node.becomes_trimmed
    · obtain ⟨d, -, h₂⟩ := Action.lift_bind_eq_ok.1 h₁
      cases d with
      | none => cases h₂
      | some d => exact followPerfect_renews h h₂

lemma Balanced.develop_renews {ε : Type} [Dice ε] {s t : Hosted (Arena R) ε} (h : s.own.Balanced)
    (hshaped : s.own.Shaped) (hrun : develop game id ply view s = .ok k t) : Renews s.own t.own := by
  obtain ⟨n, s₁, hnode, h₁⟩ := Action.bind_eq_ok.1 hrun
  obtain ⟨a₁, hread, rfl⟩ := Hosted.onOwn_eq_ok.1 hnode
  obtain ⟨hn, rfl⟩ := node_eq_ok.1 hread
  obtain ⟨state, turn, hknowledge⟩ := h.perfect id n hn
  rw [hknowledge] at h₁
  obtain ⟨a, hdevelop, rfl⟩ := Hosted.onOwn_eq_ok.1 h₁
  exact developPerfect_renews hshaped hdevelop

/-! ## A simulation -/

lemma Grows.playouts (h : Grows a a') (id : NodeId) : a'.playouts id = a.playouts id := by
  rw [Arena.playouts, h.valuation, Arena.playouts]

open Classical in
/-- A node is below exactly one child of each other node that it is below. -/
lemma Shaped.sum_children (h : a.Shaped) (hn : a.find? id = some n) (hne : id ≠ k) :
    (∑ c ∈ n.children.toFinset, if a.Leads c k then 1 else 0) = if a.Leads id k then 1 else 0 := by
  have hchild : ∀ c, c ∈ n.children ↔ ∃ e ∈ a.edgesOf id, e.child = c := fun c => by
    rw [edgesOf_of_find? hn, Node.mem_children]
  by_cases hid : a.Leads id k
  · obtain ⟨e, he, hleads⟩ := hid.exists_child hne
    rw [if_pos hid, Finset.sum_eq_single e.child, if_pos hleads]
    · intro c hc hother
      obtain ⟨e', he', rfl⟩ := (hchild c).1 (List.mem_toFinset.1 hc)
      exact if_neg fun hleads' => hother (h.child_unique he' he hleads' hleads)
    · intro hout
      exact absurd (List.mem_toFinset.2 ((hchild _).2 ⟨e, he, rfl⟩)) hout
  · rw [if_neg hid]
    refine Finset.sum_eq_zero fun c hc => if_neg fun hleads => hid ?_
    obtain ⟨e, he, rfl⟩ := (hchild c).1 (List.mem_toFinset.1 hc)
    exact .trans (.step .refl he) hleads

/-- What the arena is like when the leaf of a simulation has been expanded: only there the balance is off
by the playout to come. -/
structure Awaits (a : Arena R) (leaf : NodeId) : Prop where
  perfect : ∀ id n, a.find? id = some n → n.IsPerfect
  pristine : ∀ id n, a.find? id = some n → n.edges = none → n.valuation = none ∧ id ≠ leaf
  sum : ∀ id n, a.find? id = some n → n.move = none → n.isExpanded = true → n.isTerminal = false →
    a.playouts id = ∑ k ∈ n.children.toFinset, a.playouts k + if id = leaf then 0 else 1

/-- A node after an expansion is the expanded one, or it was there, or it is new. -/
lemma Sprouts.cases {edges : Array Edge} {m : Node R} (h : Sprouts a leaf n edges b) (hm : b.find? id = some m) :
    id = leaf ∧ m = { n with edges := some edges } ∨ id ≠ leaf ∧ (a.find? id = some m ∨ m.Pristine) := by
  by_cases hid : id = leaf
  · rw [hid, h.self, Option.some.injEq] at hm
    exact .inl ⟨hid, hm.symm⟩
  · refine .inr ⟨hid, ?_⟩
    cases hold : a.find? id with
    | none =>
      obtain ⟨hbare, hnew⟩ := h.fresh id m hold hm
      exact .inr (hbare.pristine hnew)
    | some m' =>
      rw [h.other id m' hid hold] at hm
      exact .inl hm

/-- The children of the leaf are new, as it has had no playout itself. -/
lemma Balanced.awaits_sprouts {edges : Array Edge} (h : a.Balanced) (hn : a.find? leaf = some n)
    (hnone : n.edges = none) (hsprouts : Sprouts a leaf n edges b) : b.Awaits leaf := by
  refine ⟨fun id m hm => ?_, fun id m hm hedges => ?_, fun id m hm hfree hfull hmore => ?_⟩
  · obtain ⟨-, rfl⟩ | ⟨-, hold | hnew⟩ := hsprouts.cases hm
    · exact h.perfect leaf n hn
    · exact h.perfect id m hold
    · exact hnew.perfect
  · obtain ⟨-, rfl⟩ | ⟨hne, hold | hnew⟩ := hsprouts.cases hm
    · cases hedges
    · exact ⟨h.pristine id m hold hedges, hne⟩
    · exact ⟨hnew.valuation, hne⟩
  · obtain ⟨rfl, rfl⟩ | ⟨hne, hold | hnew⟩ := hsprouts.cases hm
    · rw [if_pos rfl, Nat.add_zero, hsprouts.playouts, Arena.playouts, valuation?_of_find? hn,
        h.pristine id n hn hnone]
      refine (Finset.sum_eq_zero (M := Nat) fun k hk => ?_).symm
      obtain ⟨e, he, rfl⟩ := Node.mem_children.1 (List.mem_toFinset.1 hk)
      rw [hsprouts.playouts, Arena.playouts, valuation?, hsprouts.children e he]
      rfl
    · rw [if_neg hne, hsprouts.playouts, h.sum id m hold hfree hfull hmore]
      simp only [hsprouts.playouts]
    · rw [hnew.perfect.isExpanded, hnew.edges] at hfull
      cases hfull

/-- Expanding the leaf. -/
lemma Balanced.awaits (h : a.Balanced) (hshaped : a.Shaped) (hn : a.find? leaf = some n)
    (hstop : n.isExpanded = true → n.isTerminal = true) (hrun : expandPerfect game leaf a = .ok ⟨⟩ b) :
    b.Awaits leaf := by
  obtain ⟨m, hm, hperfect, ⟨hsome, rfl⟩ | ⟨hnone, edges, hsprouts⟩⟩ := expandPerfect_eq_ok hshaped hrun <;>
    (rw [hn, Option.some.injEq] at hm; subst hm)
  · have hterminal := hstop (hperfect.isExpanded.trans hsome)
    refine ⟨h.perfect, fun id m hm hnone => ⟨h.pristine id m hm hnone, ?_⟩, fun id m hm hfree hfull hmore => ?_⟩
    · rintro rfl
      rw [hn, Option.some.injEq] at hm
      rw [hm, hnone] at hsome
      cases hsome
    · rw [if_neg, h.sum id m hm hfree hfull hmore]
      rintro rfl
      rw [hn, Option.some.injEq] at hm
      rw [← hm, hterminal] at hmore
      cases hmore
  · exact h.awaits_sprouts hn hnone hsprouts

section Simulation

variable [Scalar R] {utility : R} {below : NodeId → Prop}

open Classical in
lemma Credits.playouts (h : Credits below utility a a') (id : NodeId) :
    a'.playouts id = a.playouts id + if below id then 1 else 0 := by
  unfold Arena.playouts
  split
  · rw [h.taken id ‹_›, Valuation.playouts_take]
  · rw [h.kept id ‹_›]
    rfl

/-- The leaf and all nodes above it take in the utility. -/
theorem Awaits.credited (h : a.Awaits leaf) (hshaped : a.Shaped)
    (hcredits : Credits (a.Leads · leaf) utility a a') : a'.Balanced := by
  classical
  -- but for its valuation, a node is the same as before
  have hsame : ∀ id n', a'.find? id = some n' → ∃ n, a.find? id = some n ∧ n'.IsPerfect ∧ n'.edges = n.edges ∧
      n'.move = n.move := by
    intro id n' hn'
    obtain ⟨n, hn, heq⟩ := hcredits.exists_find? hn'
    obtain ⟨s, turn, hknows⟩ := h.perfect id n hn
    exact ⟨n, hn, ⟨s, turn, (by rw [heq] : n'.unvalued.knowledge = n.unvalued.knowledge).trans hknows⟩,
      (by rw [heq] : n'.unvalued.edges = n.unvalued.edges), (by rw [heq] : n'.unvalued.move = n.unvalued.move)⟩
  refine ⟨fun id n' hn' => ?_, fun id n' hn' hnone => ?_, fun id n' hn' hfree hfull hmore => ?_⟩
  · obtain ⟨-, -, hperfect, -⟩ := hsame id n' hn'
    exact hperfect
  · obtain ⟨n, hn, -, hedges, -⟩ := hsame id n' hn'
    obtain ⟨hvaluation, hne⟩ := h.pristine id n hn (hedges ▸ hnone)
    rw [← valuation?_of_find? hn', hcredits.kept, valuation?_of_find? hn, hvaluation]
    intro hleads
    obtain ⟨e, he, -⟩ := hleads.exists_child hne
    rw [edgesOf_of_find? hn, Node.edgeList, ← hedges, hnone] at he
    simp at he
  · obtain ⟨n, hn, hperfect, hedges, hmove⟩ := hsame id n' hn'
    have hexpanded : n'.isExpanded = n.isExpanded := by
      rw [hperfect.isExpanded, (h.perfect id n hn).isExpanded, hedges]
    have hterminal : n'.isTerminal = n.isTerminal := by
      rw [Node.isTerminal, hexpanded, hedges, Node.isTerminal]
    have hchildren : n'.children = n.children := by rw [Node.children, hedges, Node.children]
    have hsum := h.sum id n hn (hmove ▸ hfree) (hexpanded ▸ hfull) (hterminal ▸ hmore)
    rw [hchildren, hcredits.playouts, hsum]
    simp only [hcredits.playouts, Finset.sum_add_distrib]
    by_cases hid : id = leaf
    · -- no child is above its parent
      subst hid
      have hnone : (∑ c ∈ n.children.toFinset, if a.Leads c id then 1 else 0) = 0 := by
        refine Finset.sum_eq_zero fun c hc => ?_
        obtain ⟨e, he, rfl⟩ := Node.mem_children.1 (List.mem_toFinset.1 hc)
        exact if_neg (hshaped.child_not_leads (edgesOf_of_find? hn ▸ he))
      rw [if_pos rfl, if_pos .refl, hnone]
    · rw [hshaped.sum_children hn hid, if_neg hid]
      omega

end Simulation

end Arena

end GameSearch
