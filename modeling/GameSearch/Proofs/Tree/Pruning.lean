import GameSearch.Proofs.Tree.Growth

/-!
# Trees of perfect information, and trimmed trees

What an expansion adds below a node of perfect information is described by `Arena.Sprouts`.  Trimming
and narrowing only drop edges, and with them the buckets of the children that no edge leads to any more.
-/

namespace GameSearch

namespace Node

variable {R : Type} {n : Node R} {e : Edge}

/-- The owner of a node knows the state. -/
def IsPerfect (n : Node R) : Prop := ∃ s, n.Knows s

lemma IsPerfect.not_files (h : n.IsPerfect) (k : NodeId) : ¬n.Files k := by
  obtain ⟨s, turn, h⟩ := h
  exact not_files_of_perfect h k

lemma mem_of_mem_trimmed (he : e ∈ n.trimmed.edgeList) : e ∈ n.edgeList := by
  rw [edgeList_trimmed] at he
  exact List.mem_of_mem_filter he

/-- Where the owner is not committed to a move, there is nothing to trim. -/
lemma trimmed_of_free (h : n.move = none) : n.trimmed = n := by
  obtain ⟨parent, depth, role, knowledge, edges, valuation, move⟩ := n
  cases h
  cases edges with
  | none => rfl
  | some edges =>
    have hall : edges.filter (fun _ => true) = edges := Array.filter_eq_self.2 fun _ _ => rfl
    simp [trimmed, accepts, hall]

end Node

namespace Arena

variable {R : Type} {a a' : Arena R} {id k : NodeId} {n : Node R} {game : Game} {states : StateSet}

/-! ## Perfect information -/

lemma Upright.trimmed (h : a.Upright id n) (hperfect : n.IsPerfect) : Retouches a id n n.trimmed :=
  ⟨rfl, rfl, fun e he => h.child e (Node.mem_of_mem_trimmed he),
    fun k hk => absurd hk (Node.IsPerfect.not_files (n := n.trimmed) hperfect k)⟩

lemma Shaped.trimPerfect (h : a.Shaped) (hn : a.find? id = some n) (hperfect : n.IsPerfect) :
    Reshaped a (a.update id Node.trimmed) := by
  refine h.update fun m hm => ?_
  rw [hn, Option.some.injEq] at hm
  exact hm ▸ (h.upright id n hn).trimmed hperfect

/-- Children have been added below a node of perfect information that had no edges yet. -/
structure Sprouts (a : Arena R) (id : NodeId) (n : Node R) (edges : Array Edge) (a' : Arena R) : Prop
    extends Expanded a a' where
  self : a'.find? id = some { n with edges := some edges }
  other : ∀ k m, k ≠ id → a.find? k = some m → a'.find? k = some m
  fresh : ∀ k m, a.find? k = none → a'.find? k = some m → m.Bare ∧ m.IsPerfect
  children : ∀ e ∈ edges.toList, a.find? e.child = none

/-- Children are being added for some transitions. -/
structure Sprouting (a : Arena R) (child : Station) (edges : List Edge) (a' : Arena R) : Prop
    extends Expanded a a' where
  old : ∀ k m, a.find? k = some m → a'.find? k = some m
  fresh : ∀ k m, a.find? k = none → a'.find? k = some m → m.Bare ∧ m.IsPerfect
  children : ∀ e ∈ edges, a.find? e.child = none ∧ a'.station? e.child = some child

lemma sprouting_of_mapM {steps : List (Turn × State)} {edges : List Edge} {depth : Nat} {role : Role}
    (h : a.Shaped)
    (hrun : (steps.mapM (fun (turn, t) => addPerfectChild id depth role turn t) : Action (Arena R) (List Edge)) a =
      .ok edges a') :
    Sprouting a ⟨some (Int.ofNat id), depth + 1, role⟩ edges a' := by
  refine Action.mapM_eq_ok
    (I := fun _ edges b => Sprouting a ⟨some (Int.ofNat id), depth + 1, role⟩ edges b) ?_ ?_ hrun
  · rintro before ⟨turn, t⟩ after edges b e c - hb hround
    obtain ⟨child, b₁, hadd, h₁⟩ := Action.bind_eq_ok.1 hround
    rw [Action.pure_run, EStateM.Result.ok.injEq] at h₁
    obtain ⟨rfl, rfl⟩ := h₁
    obtain ⟨m, hm, hadded⟩ := hb.shaped.orderly.add_eq_ok hadd
    have hstep := hadded.expanded hb.shaped (Node.bare_of_perfect? hm)
    have hnone : ∀ k, b.find? k = none → a.find? k = none := fun k hk => by
      cases hold : a.find? k with
      | none => rfl
      | some m => simp [hb.old k m hold] at hk
    refine ⟨hb.toExpanded.trans hstep, fun k m hk => hadded.other (hb.old k m hk), fun k m' hk hm' => ?_,
      fun e he => ?_⟩
    · rw [hadded.find?] at hm'
      split at hm'
      · cases hm'
        exact ⟨Node.bare_of_perfect? hm, t, some turn, by rw [Node.perfect?_eq_ok hm]⟩
      · exact hb.fresh k m' hk hm'
    · rcases List.mem_append.1 he with he | he
      · obtain ⟨hfree, hstation⟩ := hb.children e he
        exact ⟨hfree, hstep.station _ _ hstation⟩
      · rw [List.mem_singleton.1 he]
        refine ⟨hnone _ hadded.none, ?_⟩
        rw [station?_of_find? hadded.self, Node.perfect?_eq_ok hm]
        rfl
  · exact ⟨.refl h, fun _ _ hm => hm, fun k m hnone hm => by simp [hnone] at hm, by simp⟩

/-- The edges to the children are given to a node that had none, and those that do not agree with the move of
its owner are dropped. -/
lemma Sprouting.sprouts {edges : List Edge} (h : Sprouting a (n.station.child id) edges a')
    (hn : a.find? id = some n) (hperfect : n.IsPerfect) (hnone : n.edges = none) :
    Sprouts a id n (edges.toArray.filter fun e => n.accepts e.turn)
      ((a'.update id fun n => { n with edges := some edges.toArray }).update id Node.trimmed) := by
  let kept := edges.toArray.filter fun e => n.accepts e.turn
  have hedges : ∀ e ∈ kept.toList, e ∈ edges := fun e he => by
    simp only [kept, Array.toList_filter, List.mem_filter] at he
    exact he.1
  have hself : a'.find? id = some n := h.old id n hn
  have hretouch : Reshaped a' ((a'.update id fun n => { n with edges := some edges.toArray }).update id
      Node.trimmed) := by
    refine h.shaped.update_update fun m hm => ?_
    rw [hself, Option.some.injEq] at hm
    subst hm
    exact ⟨rfl, rfl, fun e he => (h.children e (hedges e he)).2,
      fun k hk => absurd hk (Node.IsPerfect.not_files (n := { n with edges := some kept }) hperfect k)⟩
  have hfind : ∀ k, ((a'.update id fun n => { n with edges := some edges.toArray }).update id
      Node.trimmed).find? k = if k = id then some { n with edges := some kept } else a'.find? k := by
    intro k
    by_cases hk : k = id
    · rw [hk, find?_update, if_pos rfl, find?_update, if_pos rfl, hself, if_pos rfl]
      rfl
    · simp [hk]
  have hexpanded := hretouch.expanded (k := id) (f := fun _ => { n with edges := some kept })
    (fun k => by rw [hfind, hself]; rfl) fun m edges' hm hedges' => by
      rw [hself, Option.some.injEq] at hm
      rw [← hm, hnone] at hedges'
      cases hedges'
  refine ⟨h.toExpanded.trans hexpanded, ?_, fun k m hk hm => ?_, fun k m hfree hm => ?_,
    fun e he => (h.children e (hedges e he)).1⟩
  · rw [hfind, if_pos rfl]
  · rw [hfind, if_neg hk]
    exact h.old k m hm
  · rw [hfind, if_neg (by rintro rfl; rw [hn] at hfree; cases hfree)] at hm
    exact h.fresh k m hfree hm

/-- An expansion that returns finds the node of perfect information expanded, or adds children for all
transitions. -/
lemma expandPerfect_cases (hrun : expandPerfect game id a = .ok ⟨⟩ a') :
    ∃ n s, a.find? id = some n ∧ n.Knows s ∧ (n.edges.isSome = true ∧ a' = a ∨
      n.edges = none ∧ ∃ steps edges b, game.successors? s = .ok steps ∧
        (steps.mapM (fun (turn, t) => addPerfectChild id n.depth n.role turn t) :
          Action (Arena R) (List Edge)) a = .ok edges b ∧
        a' = (b.update id fun n => { n with edges := some edges.toArray }).update id Node.trimmed) := by
  obtain ⟨_, _, hget, h₁⟩ := Action.bind_eq_ok.1 hrun
  cases hget
  obtain ⟨s, hs, h₂⟩ := Action.lift_bind_eq_ok.1 h₁
  obtain ⟨n, turn, hn, hknowledge⟩ := state?_eq_ok.1 hs
  obtain ⟨m, a₁, hnode, h₃⟩ := Action.bind_eq_ok.1 h₂
  obtain ⟨hm, rfl⟩ := node_eq_ok.1 hnode
  rw [hn, Option.some.injEq] at hm
  subst hm
  have hexpanded : n.isExpanded = n.edges.isSome := Node.isExpanded_of_knows ⟨turn, hknowledge⟩
  refine ⟨n, s, hn, ⟨turn, hknowledge⟩, ?_⟩
  rw [hexpanded] at h₃
  split at h₃
  · cases h₃
    exact .inl ⟨‹_›, rfl⟩
  · rename_i hsome
    have hnone : n.edges = none := by simpa using hsome
    obtain ⟨steps, hsteps, h₄⟩ := Action.lift_bind_eq_ok.1 h₃
    obtain ⟨edges, a₂, hmapM, h₅⟩ := Action.bind_eq_ok.1 h₄
    obtain ⟨_, a₃, hchange, htrim⟩ := Action.bind_eq_ok.1 h₅
    cases hchange
    rw [trimPerfect_run, EStateM.Result.ok.injEq] at htrim
    obtain ⟨-, rfl⟩ := htrim
    exact .inr ⟨hnone, steps, edges, a₂, hsteps, hmapM, rfl⟩

/-- So it sprouts if it was not expanded. -/
theorem expandPerfect_eq_ok (h : a.Shaped) (hrun : expandPerfect game id a = .ok ⟨⟩ a') :
    ∃ n, a.find? id = some n ∧ n.IsPerfect ∧
      (n.edges.isSome = true ∧ a' = a ∨ n.edges = none ∧ ∃ edges, Sprouts a id n edges a') := by
  obtain ⟨n, s, hn, hknows, hsame | ⟨hnone, steps, edges, b, -, hmapM, rfl⟩⟩ := expandPerfect_cases hrun
  · exact ⟨n, hn, ⟨s, hknows⟩, .inl hsame⟩
  · exact ⟨n, hn, ⟨s, hknows⟩, .inr ⟨hnone, _, (sprouting_of_mapM h hmapM).sprouts hn ⟨s, hknows⟩ hnone⟩⟩

lemma respects_expandPerfect : Action.Respects Expands (expandPerfect game id : Action (Arena R) Unit) := by
  intro a r a' hrun h
  obtain ⟨n, -, -, ⟨-, rfl⟩ | ⟨-, edges, hsprouts⟩⟩ := expandPerfect_eq_ok h hrun
  · exact .refl h
  · exact hsprouts.toExpanded

lemma respects_expand : Action.Respects Expands (expand game id : Action (Arena R) Unit) := by
  refine Action.Respects.bind ?_ fun n => ?_
  · exact Action.respects_get_bind fun a => Action.respects_lift _
  · split
    · exact respects_expandPerfect
    · exact respects_expandBelief

/-! ## Narrowing -/

/-- Edges may be dropped with the buckets of the children that no edge leads to any more. -/
lemma Upright.narrowed {b : Belief} {edges : Array Edge} (h : a.Upright id n)
    (hsub : ∀ e ∈ edges.toList, e ∈ n.edgeList) : Retouches a id n { n with
      knowledge := .belief { b with buckets := b.buckets.filter fun _ child => (statesByChild edges).contains child }
      edges := some edges } := by
  refine ⟨rfl, rfl, fun e he => h.child e (hsub e he), ?_⟩
  rintro k ⟨_, hb', o, ho⟩
  cases hb'
  rw [Std.HashMap.getElem?_filter', Option.filter_eq_some_iff, contains_statesByChild] at ho
  exact ho.2

/-- Trimming a node drops edges and the buckets that have lost all their edges. -/
theorem respects_trimWith {narrow : NodeId → StateSet → Action (Arena R) Unit}
    (hnarrow : ∀ k states, Action.Respects Reshapes (narrow k states)) :
    Action.Respects Reshapes (trimWith narrow id) := by
  intro a r a' hrun h
  obtain ⟨n, a₁, hnode, h₁⟩ := Action.bind_eq_ok.1 hrun
  obtain ⟨hn, rfl⟩ := node_eq_ok.1 hnode
  obtain ⟨b, a₂, hbelief, h₂⟩ := Action.bind_eq_ok.1 h₁
  obtain ⟨⟨m, hm, hb⟩, rfl⟩ := belief_eq_ok.1 hbelief
  rw [hn, Option.some.injEq] at hm
  subst hm
  cases hedges : n.edges with
  | none =>
    rw [hedges] at h₂
    cases h₂
    exact ⟨.refl, h⟩
  | some edges =>
    rw [hedges] at h₂
    obtain ⟨_, a₃, hchange, h₃⟩ := Action.bind_eq_ok.1 h₂
    obtain ⟨_, a₄, hbuckets, h₄⟩ := Action.bind_eq_ok.1 h₃
    obtain ⟨_, a₅, hloop, h₅⟩ := Action.bind_eq_ok.1 h₄
    cases hchange
    cases hbuckets
    cases h₅
    have hsub : ∀ p : Edge → Bool, ∀ e ∈ (edges.filter p).toList, e ∈ n.edgeList := fun p e he => by
      rw [Array.toList_filter, List.mem_filter] at he
      rw [Node.edgeList, hedges]
      exact he.1
    refine IsTrans.trans (r := Reshapes) _ _ _ (fun h => h.update_update fun m hm => ?_)
      (Action.respects_forIn (fun c _ _ => ?_) _ _ _ hloop) h
    · rw [hn, Option.some.injEq] at hm
      subst hm
      simp only [hb]
      exact (h.upright id n hn).narrowed (hsub _)
    · obtain ⟨child, states⟩ := c
      exact (hnarrow child states).bind fun _ => Action.respects_pure _

lemma respects_node {rel : Arena R → Arena R → Prop} [IsPreorder (Arena R) rel] :
    Action.Respects rel (node id : Action (Arena R) (Node R)) :=
  Action.respects_get_bind fun _ => Action.respects_lift _

lemma respects_belief {rel : Arena R → Arena R → Prop} [IsPreorder (Arena R) rel] :
    Action.Respects rel (belief id : Action (Arena R) Belief) :=
  Action.respects_get_bind fun _ => Action.respects_lift _

lemma respects_reviseBelief {f : Belief → Belief} (hf : ∀ b, (f b).buckets = b.buckets) :
    Action.Respects Reshapes (changeBelief id f : Action (Arena R) Unit) :=
  (respects_changeBelief hf).mono fun _ _ => Expands.reshapes

lemma respects_restrictWithin (fuel : Nat) :
    Action.Respects Reshapes (restrictWithin fuel id states : Action (Arena R) Unit) := by
  induction fuel generalizing id states with
  | zero => exact Action.respects_throw _
  | succ fuel ih =>
    rw [restrictWithin]
    refine respects_belief.bind fun b => ?_
    simp only
    split
    · refine Action.Respects.ite (fun _ => Action.respects_pure _) fun _ => ?_
      refine Action.Respects.bind (respects_reviseBelief ?_) fun _ => respects_trimWith fun k states => ih
      exact fun _ => rfl
    · exact Action.respects_throw _

lemma respects_heightBound : Action.Respects Reshapes (heightBound : Action (Arena R) Nat) :=
  Action.respects_get_bind fun _ => Action.respects_pure _

lemma respects_restrict : Action.Respects Reshapes (restrict id states : Action (Arena R) Unit) :=
  respects_heightBound.bind fun fuel => respects_restrictWithin fuel

lemma respects_trimBelief : Action.Respects Reshapes (trimBelief id : Action (Arena R) Unit) :=
  respects_heightBound.bind fun fuel => respects_trimWith fun _ _ => respects_restrictWithin fuel

lemma respects_markSampledWithin (fuel : Nat) :
    Action.Respects Reshapes (markSampledWithin fuel id : Action (Arena R) Unit) := by
  induction fuel generalizing id with
  | zero => exact Action.respects_throw _
  | succ fuel ih =>
    rw [markSampledWithin]
    refine respects_belief.bind fun b => Action.Respects.ite (fun _ => Action.respects_pure _) fun _ => ?_
    refine Action.Respects.bind (respects_reviseBelief ?_) fun _ => respects_node.bind fun n => ?_
    · exact fun _ => rfl
    · refine Action.Respects.bind ?_ fun _ => Action.respects_pure _
      rw [← Array.forIn_toList]
      exact Action.respects_forIn fun e _ _ => ih.bind fun _ => Action.respects_pure _

lemma respects_markSampled : Action.Respects Reshapes (markSampled id : Action (Arena R) Unit) :=
  respects_heightBound.bind fun fuel => respects_markSampledWithin fuel

lemma respects_setSample : Action.Respects Reshapes (setSample id states : Action (Arena R) Unit) :=
  respects_markSampled.bind fun _ => respects_restrict

lemma respects_trim : Action.Respects Reshapes (trim id : Action (Arena R) Unit) := by
  intro a r a' hrun h
  obtain ⟨n, a₁, hnode, hrest⟩ := Action.bind_eq_ok.1 hrun
  obtain ⟨hn, rfl⟩ := node_eq_ok.1 hnode
  cases hknowledge : n.knowledge with
  | perfect s turn =>
    rw [hknowledge] at hrest
    cases trimPerfect_run.symm.trans hrest
    exact h.trimPerfect hn ⟨s, turn, hknowledge⟩
  | belief b =>
    rw [hknowledge] at hrest
    exact respects_trimBelief _ _ _ hrest h

/-- Committing the owner of a node to a move. -/
lemma respects_commit {move : Move} :
    Action.Respects Reshapes (commit id move : Action (Arena R) Unit) := by
  refine respects_node.bind fun _ => Action.Respects.mono (respects_change ?_) fun _ _ => Expands.reshapes
  exact fun _ => ⟨rfl, rfl, rfl, rfl⟩

end Arena

end GameSearch
