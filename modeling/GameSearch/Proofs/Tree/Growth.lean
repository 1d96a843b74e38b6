import GameSearch.Proofs.Belief.Narrowing
import GameSearch.Proofs.Tree.Shape

/-!
# Growing and trimming

Expanding nodes and trimming them keeps the shape of an arena, whatever the game answers: when the
operation returns, each new edge leads to a child of the node that it leaves.
-/

namespace GameSearch.Arena

variable {R : Type} {a a' : Arena R} {id k : NodeId} {n : Node R} {game : Game} {world next : State}
  {turn : Turn}

/-! ## Queries that succeed -/

lemma belief?_eq_ok {b : Belief} : a.belief? id = .ok b ↔
    ∃ n, a.find? id = some n ∧ n.knowledge = .belief b := by
  unfold belief? node?
  cases a.find? id with
  | none => simp [bind, Except.bind]
  | some n =>
    cases hn : n.knowledge with
    | perfect s turn => simp [bind, Except.bind, hn, throw, throwThe, MonadExceptOf.throw]
    | belief b' => simp [bind, Except.bind, hn, pure, Except.pure]

lemma belief_eq_ok {b : Belief} : belief id a = .ok b a' ↔
    (∃ n, a.find? id = some n ∧ n.knowledge = .belief b) ∧ a' = a := by
  rw [belief, Action.bind_of_ok (Action.get_run a), Action.lift_eq_ok, belief?_eq_ok]

lemma state?_eq_ok {s : State} : a.state? id = .ok s ↔
    ∃ n turn, a.find? id = some n ∧ n.knowledge = .perfect s turn := by
  unfold state? node?
  cases a.find? id with
  | none => simp [bind, Except.bind]
  | some n =>
    cases hn : n.knowledge with
    | perfect s' turn => simp [bind, Except.bind, hn, pure, Except.pure]
    | belief b => simp [bind, Except.bind, hn, throw, throwThe, MonadExceptOf.throw]

/-! ## Trees of beliefs -/

def pushEdge (e : Edge) (n : Node R) : Node R := { n with edges := n.edges.map (·.push e) }

lemma mem_edgeList_pushEdge {e e' : Edge} :
    e' ∈ (pushEdge e n).edgeList ↔ e' ∈ n.edgeList ∨ n.edges.isSome = true ∧ e' = e := by
  unfold pushEdge Node.edgeList
  cases n.edges <;> simp

lemma keeps_pushEdge {e : Edge} {edges : Array Edge} (h : n.edges = some edges) :
    ∃ edges', (pushEdge e n).edges = some edges' ∧ ∀ e' ∈ edges.toList, e' ∈ edges'.toList :=
  ⟨edges.push e, by simp [pushEdge, h], fun e' he => by simp [(Array.mem_toList_iff).1 he]⟩

lemma Shaped.pushEdge {e : Edge} (h : a.Shaped) (hn : a.find? id = some n)
    (he : a.station? e.child = some (n.station.child id)) : Expanded a (a.update id (Arena.pushEdge e)) := by
  refine h.update_expanded (fun m hm => ?_) fun m edges hm hedges => keeps_pushEdge hedges
  rw [hn, Option.some.injEq] at hm
  subst hm
  have hupright := h.upright id n hn
  refine ⟨rfl, rfl, fun e' he' => ?_, fun k hk => ?_⟩
  · rcases mem_edgeList_pushEdge.1 he' with he' | ⟨-, rfl⟩
    · exact hupright.child e' he'
    · exact he
  · obtain ⟨e', he', hchild⟩ := hupright.filed k hk
    exact ⟨e', mem_edgeList_pushEdge.2 (.inl he'), hchild⟩

/-- The bucket for a new child and the edge to it are added. -/
lemma Shaped.pushChild {b : Belief} {o : Observation} {e : Edge} {f : Node R → Node R} (h : a.Shaped)
    (hn : a.find? id = some n) (hb : n.knowledge = .belief b) (hopen : n.edges.isSome = true)
    (hf : f n = { n with knowledge := .belief { b with buckets := b.buckets.insert o e.child } })
    (he : a.station? e.child = some (n.station.child id)) :
    Expanded a ((a.update id f).update id (Arena.pushEdge e)) := by
  have hkeep : ∀ m, a.find? id = some m → m = n := fun m hm => Option.some.inj (hm.symm.trans hn)
  have hupright := h.upright id n hn
  have hreshaped : Reshaped a ((a.update id f).update id (Arena.pushEdge e)) := by
    refine h.update_update fun m hm => ?_
    rw [hkeep m hm, hf]
    refine ⟨rfl, rfl, fun e' he' => ?_, fun k hk => ?_⟩
    · rcases mem_edgeList_pushEdge.1 he' with he' | ⟨-, rfl⟩
      · exact hupright.child e' he'
      · exact he
    · obtain ⟨_, hb', o', ho'⟩ := hk
      cases hb'
      rw [Std.HashMap.getElem?_insert] at ho'
      split at ho'
      · cases ho'
        exact ⟨e, mem_edgeList_pushEdge.2 (.inr ⟨hopen, rfl⟩), rfl⟩
      · obtain ⟨e', he', hchild⟩ := hupright.filed k ⟨b, hb, o', ho'⟩
        exact ⟨e', mem_edgeList_pushEdge.2 (.inl he'), hchild⟩
  refine hreshaped.expanded (k := id) (f := fun n => Arena.pushEdge e (f n)) (fun k => ?_)
    fun m edges hm hedges => ?_
  · by_cases hk : k = id
    · simp [hk, Option.map_map, Function.comp_def]
    · simp [hk]
  · rw [hkeep m hm] at hedges ⊢
    rw [hf]
    exact keeps_pushEdge hedges

/-- An edge is added to the child for an observation, which may be a new one. -/
theorem childFor_expanded {b : Belief} {o : Observation} {e : Edge} {child : NodeId} (h : a.Shaped)
    (hn : a.find? id = some n) (hb : n.knowledge = .belief b) (hopen : n.edges.isSome = true)
    (hrun : childFor id n b o next a = .ok child a') :
    Expanded a (a'.update id (pushEdge { e with child := child })) := by
  cases ho : b.buckets[o]? with
  | none =>
    -- The child is added, is given a history, and is filed under the observation.
    rw [childFor, ho] at hrun
    obtain ⟨c, a₁, hadd, h₁⟩ := Action.bind_eq_ok.1 hrun
    obtain ⟨_, a₂, hhistory, h₂⟩ := Action.bind_eq_ok.1 h₁
    obtain ⟨_, a₃, hbucket, h₃⟩ := Action.bind_eq_ok.1 h₂
    cases h₃
    cases hbucket
    obtain ⟨m, hm, hadded⟩ := h.orderly.add_eq_ok hadd
    have hnode : a₁.find? id = some n := hadded.other hn
    have hne : id ≠ child := by
      rintro rfl
      rw [hadded.none] at hn
      cases hn
    have hfirst : Expanded a a₁ := hadded.expanded h (Node.bare_of_belief? hm)
    have hsecond : Expanded a₁ a₂ := changeBelief_expanded hfirst.shaped hhistory fun _ => rfl
    have hnode₂ : a₂.find? id = some n := by
      cases hhistory
      rw [find?_update, if_neg hne, hnode]
    have hchild : a₂.station? child = some (n.station.child id) := by
      refine hsecond.station _ _ (station?_eq_some.2 ⟨m, hadded.self, ?_⟩)
      obtain ⟨b', -, rfl⟩ := Node.belief?_eq_ok hm
      simp only [Node.station, Station.child]
      congr 1
    refine (hfirst.trans hsecond).trans ?_
    refine hsecond.shaped.pushChild (b := b) (o := o) hnode₂ hb hopen ?_ hchild
    obtain ⟨parent, depth, role, knowledge, edges, valuation, move⟩ := n
    cases hb
    rfl
  | some c =>
    rw [childFor, ho] at hrun
    obtain ⟨_, a₁, hbelief, h₁⟩ := Action.bind_eq_ok.1 hrun
    obtain ⟨-, rfl⟩ := belief_eq_ok.1 hbelief
    obtain ⟨_, a₂, hworld, h₂⟩ := Action.bind_eq_ok.1 h₁
    cases h₂
    have hfirst : Expanded a₁ a' := changeBelief_expanded h hworld fun _ => rfl
    obtain ⟨n', hn', hstation⟩ := hfirst.find? hn
    obtain ⟨e', he', hchild⟩ := (h.upright id n hn).filed child ⟨b, hb, o, ho⟩
    refine hfirst.trans (hfirst.shaped.pushEdge hn' ?_)
    rw [hstation]
    exact hfirst.station _ _ (hchild ▸ (h.upright id n hn).child e' he')

/-- A node has been expanded in part at least. -/
def Opened (a : Arena R) (id : NodeId) : Prop := ∃ edges, (a.find? id).bind Node.edges = some edges

lemma Expanded.opened (h : Expanded a a') (hopened : a.Opened id) : a'.Opened id := by
  obtain ⟨edges, hedges⟩ := hopened
  obtain ⟨edges', hedges', -⟩ := h.keeps id edges hedges
  exact ⟨edges', hedges'⟩

lemma addTransition_expanded (h : a.Shaped) (hopened : a.Opened id)
    (hrun : addTransition game id world turn next a = .ok ⟨⟩ a') : Expanded a a' := by
  obtain ⟨n, a₁, hnode, h₁⟩ := Action.bind_eq_ok.1 hrun
  obtain ⟨hn, rfl⟩ := node_eq_ok.1 hnode
  obtain ⟨b, a₂, hbelief, h₂⟩ := Action.bind_eq_ok.1 h₁
  obtain ⟨⟨m, hm, hb⟩, rfl⟩ := belief_eq_ok.1 hbelief
  rw [hn, Option.some.injEq] at hm
  subst hm
  obtain ⟨edges, hedges⟩ := hopened
  rw [hn] at hedges
  simp only at h₂
  split at h₂
  · cases h₂
    exact .refl h
  · obtain ⟨o, -, h₃⟩ := Action.lift_bind_eq_ok.1 h₂
    obtain ⟨child, a₃, hchild, h₄⟩ := Action.bind_eq_ok.1 h₃
    cases h₄
    exact childFor_expanded (e := ⟨keyOf n world turn, turn, next, id⟩) h hn hb
      (Option.isSome_iff_exists.2 ⟨edges, hedges⟩) hchild

lemma addTransitions_expanded (h : a.Shaped) (hn : a.find? id = some n)
    (hrun : addTransitions game id world a = .ok ⟨⟩ a') : Expanded a a' := by
  obtain ⟨_, a₁, hopen, h₁⟩ := Action.bind_eq_ok.1 hrun
  cases hopen
  obtain ⟨steps, -, h₂⟩ := Action.lift_bind_eq_ok.1 h₁
  obtain ⟨_, a₂, hloop, hdone⟩ := Action.bind_eq_ok.1 h₂
  have hedges : ∀ n : Node R, Node.edgeList { n with edges := n.edges.or (some #[]) } = n.edgeList := by
    intro n
    unfold Node.edgeList
    cases n.edges <;> rfl
  have hfirst : Expanded a (a.update id fun n => { n with edges := n.edges.or (some #[]) }) := by
    refine h.update_expanded (fun m hm => ⟨rfl, rfl, fun e he => ?_, fun k hk => ?_⟩) fun m edges hm he => ?_
    · rw [hedges] at he
      exact (h.upright id m hm).child e he
    · rw [hedges]
      exact (h.upright id m hm).filed k hk
    · exact ⟨edges, by simp [he], fun _ he => he⟩
  have hopened : Arena.Opened (a.update id fun n => { n with edges := n.edges.or (some #[]) }) id := by
    unfold Opened
    rw [find?_update, if_pos rfl, hn]
    cases hsome : n.edges <;> simp [hsome]
  have hloop := Action.forIn_eq_ok (I := fun _ _ b => Expanded a b ∧ b.Opened id)
    (by
      rintro before ⟨turn, next⟩ after _ b r b' - ⟨hb, hopened⟩ hround
      obtain ⟨_, b₁, hstep, hround⟩ := Action.bind_eq_ok.1 hround
      cases hround
      have hstep := addTransition_expanded hb.shaped hopened hstep
      exact ⟨⟨⟩, rfl, hb.trans hstep, hstep.opened hopened⟩)
    ⟨hfirst, hopened⟩ hloop
  exact hloop.1.trans (changeBelief_expanded hloop.1.shaped hdone fun _ => rfl)

lemma respects_expandBelief : Action.Respects Expands (expandBelief game id : Action (Arena R) Unit) := by
  intro a r a' hrun h
  obtain ⟨n, a₁, hnode, h₁⟩ := Action.bind_eq_ok.1 hrun
  obtain ⟨hn, rfl⟩ := node_eq_ok.1 hnode
  split at h₁
  · cases h₁
    exact .refl h
  · obtain ⟨b, a₂, hbelief, h₂⟩ := Action.bind_eq_ok.1 h₁
    obtain ⟨-, rfl⟩ := belief_eq_ok.1 hbelief
    obtain ⟨_, a₃, hloop, h₃⟩ := Action.bind_eq_ok.1 h₂
    cases h₃
    refine Action.forIn_eq_ok (I := fun _ _ b => Expanded a₂ b) ?_ (.refl h) hloop
    intro before w after _ b' r b'' _ hb' hround
    split at hround
    · obtain ⟨_, b₁, hworld, hround⟩ := Action.bind_eq_ok.1 hround
      cases hround
      obtain ⟨n', hn', -⟩ := hb'.find? hn
      exact ⟨⟨⟩, rfl, hb'.trans (addTransitions_expanded hb'.shaped hn' hworld)⟩
    · cases hround
      exact ⟨⟨⟩, rfl, hb'⟩

lemma respects_expandWorld : Action.Respects Expands (expandWorld game id world : Action (Arena R) Unit) := by
  intro a r a' hrun h
  obtain ⟨b, a₁, hbelief, h₁⟩ := Action.bind_eq_ok.1 hrun
  obtain ⟨⟨n, hn, -⟩, rfl⟩ := belief_eq_ok.1 hbelief
  split at h₁
  · cases h₁
    exact .refl h
  · simp only at h₁
    split at h₁
    · obtain ⟨_, _, hthrow, -⟩ := Action.bind_eq_ok.1 h₁
      cases hthrow
    · exact addTransitions_expanded h hn h₁

end GameSearch.Arena
