import GameSearch.Proofs.Belief.Tending

/-!
# What a tree of beliefs represents

In a tended tree the edges of a node are exactly the transitions out of its expanded worlds that
agree with the committed move, each of them once, and the children are the classes of transitions
that the owner cannot tell apart.
-/

namespace GameSearch

/-- A turn agrees with the move that the owner of a node is committed to. -/
def Node.Permits {R : Type} (n : Node R) (turn : Turn) : Prop :=
  ∀ move, n.move = some move → turn.find? n.role = some move

lemma Place.accepts_iff {R : Type} {p : Place} (hbound : p.IsBound) (v : Option (Valuation R))
    (turn : Turn) : p.accepts turn = true ↔ (p.toNode v).Permits turn := by
  unfold accepts Node.Permits
  cases hmove : p.move with
  | none => simp [toNode, hmove]
  | some move =>
    have hvisible : p.belief.isVisible = true := by simpa [IsBound, hmove] using hbound
    simp [toNode, hmove, hvisible, Turn.contains]

namespace Arena

variable {R : Type} {u : Upkeep} {a : Arena R} {root id : NodeId} {p q : Place} {game : Game}
  {possible : State → Prop}

/-- The edges of a node and its children are what its belief says. -/
structure Represents (game : Game) (a : Arena R) (id : NodeId) (n : Node R) (b : Belief) : Prop where
  origin : ∀ e ∈ a.edgesOf id, ∃ w ∈ b.worlds, e.key.world = some w ∧ w ∈ b.expanded ∧
    (e.turn, e.next) ∈ game.transitions w ∧ n.Permits e.turn
  expanded : ∀ w ∈ b.expanded, w ∈ b.worlds ∧ ∀ step ∈ game.transitions w, n.Permits step.1 →
    (a.edgesOf id).countP (fun e => e.key.world = some w ∧ (e.turn, e.next) = step) = 1
  child : ∀ e ∈ a.edgesOf id, ∃ c belief, a.find? e.child = some c ∧ c.knowledge = .belief belief ∧
    c.parent = some (Int.ofNat id) ∧ c.depth = n.depth + 1 ∧ c.role = n.role ∧
    ∀ s, s ∈ belief.worlds ↔ ∃ e' ∈ a.edgesOf id, e'.child = e.child ∧ e'.next = s
  shared : ∀ e ∈ a.edgesOf id, ∀ e' ∈ a.edgesOf id, e.child = e'.child ↔
    game.observed n.role e.turn e.next = game.observed n.role e'.turn e'.next

lemma countP_eq_count_out {w : State} {step : Turn × State} (hp : a.place? id = some p) :
    (a.edgesOf id).countP (fun e => e.key.world = some w ∧ (e.turn, e.next) = step) =
      (p.out w).count step := by
  rw [edgesOf_of_place? hp, Place.out, List.count, List.countP_map, List.countP_filter]
  refine List.countP_congr fun e _ => ?_
  simp [and_comm]

/-- A sound place whose owner is bound by its move is what its belief says. -/
theorem Sound.represents_place (h : a.AllSound u) (hp : a.place? id = some p)
    (hbound : p.IsBound) (hsteady : u.steady)
    (hdistinct : ∀ s, u.states s → ((u.game.transitions s).map Prod.fst).Nodup)
    (v : Option (Valuation R)) : Represents u.game a id (p.toNode v) p.belief := by
  have hfits := h.kept id p hp (by simp)
  have hlist := edgesOf_of_place? hp
  refine ⟨fun e he => ?_, fun w hw => ⟨hfits.expanded w hw, fun step hstep hpermits => ?_⟩,
    fun e he => ?_, fun e he e' he' => ?_⟩
  · obtain ⟨w, hw, hkey, hstep, haccepts⟩ := hfits.edge (hlist ▸ he)
    exact ⟨w, hfits.expanded w hw, by rw [hkey]; rfl, hw, hstep, (p.accepts_iff hbound v _).1 haccepts⟩
  · have hnodup : (u.game.transitions w).Nodup :=
      .of_map Prod.fst (hdistinct w ((h.known id p hp).worlds w (hfits.expanded w hw)))
    have hdone : p.done u w = u.game.transitions w := if_pos hw
    rw [countP_eq_count_out hp, (hfits.out w).resolve_right fun hout => hout.1.1 hsteady, hdone]
    refine List.count_eq_one_of_mem (hnodup.filter _) (List.mem_filter.2 ⟨hstep, ?_⟩)
    exact (p.accepts_iff hbound v _).2 hpermits
  · rw [hlist] at he ⊢
    obtain ⟨c, hc, hof⟩ := hfits.child e he
    obtain ⟨w, hw⟩ := find?_of_place? hc
    exact ⟨c.toNode w, c.belief, hw, rfl, hof.parent, hof.depth, hof.role, hof.worlds⟩
  · rw [hlist] at he he'
    constructor
    · exact hfits.same e he e' he'
    · intro hseen
      have hbucket := hfits.bucket e he
      rw [show p.seen u e = p.seen u e' from hseen, hfits.bucket e' he', Option.some.injEq] at hbucket
      exact hbucket.symm

/-- In a tended tree every node is what its belief says. -/
theorem Tended.represents (hgame : game.AnswersOn possible) (hstart : possible game.start)
    (hdistinct : ∀ s, possible s → ((game.transitions s).map Prod.fst).Nodup)
    (h : Tended game possible a root) (hleads : a.Leads root id) :
    ∃ n b, a.find? id = some n ∧ n.knowledge = .belief b ∧ Represents game a id n b := by
  obtain ⟨p, hrooted, hbound⟩ := h.rooted hgame hstart
  obtain ⟨q, hq, -⟩ := hrooted.sound.leads hrooted.place hleads
  obtain ⟨v, hn⟩ := find?_of_place? hq
  exact ⟨q.toNode v, q.belief, hn, rfl, Sound.represents_place hrooted.sound hq
    (hrooted.isBound hbound hleads hq) trivial hdistinct v⟩

end Arena

/-! ## A game of one turn -/

namespace Lever

/-- The one who pulls the lever. -/
def puller : Role := .symbol "p"

def up : Move := .symbol "u"

def down : Move := .symbol "d"

/-- The lever has not been pulled yet. -/
def idle : State := .ofList [controlOf puller]

def raised : State := .ofList [.symbol "r"]

def lowered : State := .ofList [.symbol "l"]

/-- A lever is pulled up or down, and nobody sees where it is. -/
def game : Game where
  roles := [puller]
  start := idle
  sees _ := .ok ∅
  legal _ := .ok ((∅ : ByRole (List Move)).insert puller [up, down])
  goals _ := .ok ∅
  isTerminal s := .ok (decide (s ≠ idle))
  play _ turn := .ok (if turn.contains puller up then raised else lowered)

lemma successors?_idle :
    game.successors? idle = .ok [(.single puller up, raised), (.single puller down, lowered)] := by
  rfl

lemma successors?_of_ne {s : State} (h : s ≠ idle) : game.successors? s = .ok [] :=
  Game.successors?_of_isTerminal (by simp [game, h])

lemma answers : game.AnswersOn fun _ => True where
  sees _ _ := ⟨_, rfl⟩
  legal _ _ := ⟨_, rfl⟩
  goals _ _ := ⟨_, rfl⟩
  isTerminal _ _ := ⟨_, rfl⟩
  successors s _ := by
    by_cases h : s = idle
    · exact ⟨_, h ▸ successors?_idle⟩
    · exact ⟨_, successors?_of_ne h⟩
  closed _ _ _ _ := trivial

lemma transitions_idle :
    game.transitions idle = [(.single puller up, raised), (.single puller down, lowered)] :=
  Game.transitions_of_ok successors?_idle

/-- The lever is pulled once. -/
lemma pulled_of_after {n : Nat} {s : State} (h : game.After (n + 1) idle s) : s = raised ∨ s = lowered := by
  obtain ⟨t, -, step, hstep, rfl⟩ := Game.after_succ.1 h
  have hidle : t = idle := by simpa [game] using Game.isTerminal_of_mem_transitions hstep
  rw [hidle, transitions_idle] at hstep
  rcases List.mem_pair.1 hstep with rfl | rfl
  · exact .inl rfl
  · exact .inr rfl

lemma nodup_transitions (s : State) : ((game.transitions s).map Prod.fst).Nodup := by
  by_cases h : s = idle
  · rw [h, transitions_idle]
    decide
  · rw [Game.transitions_of_ok (successors?_of_ne h)]
    exact List.nodup_nil

/-- A root at which the lever has not been pulled yet, and its tree after an expansion. -/
lemma exists_expanded (u : Upkeep) (hgame : u.game = game) (hidle : u.states idle) :
    ∃ (a₁ a₂ : Arena Binary64) (root : NodeId) (p : Place),
      Arena.add (Node.belief? none 0 puller {idle} true (Node.standingOf true ∅)) ∅ = .ok root a₁ ∧
      Arena.expand game root a₁ = .ok ⟨⟩ a₂ ∧ Arena.Rooted u a₂ root p ∧ p.depth = 0 ∧
      p.role = puller ∧ p.move = none ∧ p.belief.isComplete = true ∧
      p.belief.standing = .visible (some ∅) ∧ p.belief.worlds = {idle} ∧ idle ∈ p.belief.expanded ∧
      p.edges ≠ none := by
  have hne : ({idle} : StateSet).isEmpty = false := StateSet.isEmpty_singleton idle
  have hknown : ∀ s ∈ ({idle} : StateSet), u.states s := fun s hs =>
    StateSet.mem_singleton.1 hs ▸ hidle
  obtain ⟨root, a₁, hadd, -, hsound₁, hplaces₁⟩ := @Arena.addRoot_yields Binary64 u (fun _ => False) ∅ _
    puller 0 true (Node.standingOf true ∅) Arena.sound_empty (Int.le_refl 0) hne hknown
  have hself₁ : a₁.place? root = some (.root 0 puller {idle} true (Node.standingOf true ∅) hne) := by
    rw [hplaces₁, Function.update_self]
    rfl
  obtain ⟨v, hnode⟩ := Arena.node_run hself₁
  obtain ⟨a₂, p, hexpand, hgrown, hedges⟩ := Arena.expandBelief_yields hsound₁ hself₁
  obtain ⟨-, halike⟩ := hgrown.extended hself₁
  refine ⟨a₁, a₂, root, p, hadd, ?_, ⟨hgrown.sound, hgrown.place, halike.parent⟩, halike.depth,
    halike.role, halike.move, halike.isComplete, halike.standing, halike.worlds, ?_, hedges⟩
  · rw [Arena.expand, Action.bind_of_ok hnode]
    exact hgame ▸ hexpand
  · exact (hgrown.expanded idle).2 (.inr (StateSet.mem_singleton.2 rfl))

/-- What is known of the tree once the owner of its root is committed to pulling the lever up. -/
lemma exists_committed (steady : Prop) :
    ∃ (a₁ a₂ a₃ : Arena Binary64) (root : NodeId) (p : Place),
      Arena.add (Node.belief? none 0 puller {idle} true (Node.standingOf true ∅)) ∅ = .ok root a₁ ∧
      Arena.expand game root a₁ = .ok ⟨⟩ a₂ ∧
      (do Arena.commit root up; Arena.trim root : Action (Arena Binary64) Unit) a₂ = .ok ⟨⟩ a₃ ∧
      Arena.Tended game (fun _ => True) a₃ root ∧
      Arena.Rooted ⟨game, fun _ => True, answers, steady, False⟩ a₃ root p ∧ p.depth = 0 ∧
      p.role = puller ∧ p.move = some up ∧ p.belief.isComplete = true ∧
      p.belief.standing = .visible (some ∅) ∧ p.belief.worlds = {idle} ∧ idle ∈ p.belief.expanded ∧
      p.edges ≠ none := by
  obtain ⟨a₁, a₂, root, p, hadd, hexpand, hrooted, hdepth, hrole, hmove, hcomplete, hstanding, hworlds,
    hexpanded, hedges⟩ := exists_expanded ⟨game, fun _ => True, answers, steady, False⟩ rfl trivial
  have htended : Arena.Tended game (fun _ => True) a₂ root :=
    .expand (.plant (fun _ _ => trivial) trivial hadd) trivial hexpand
  obtain ⟨a₃, q, hcommit, hrooted₃, htrimmed, -⟩ :=
    @Arena.Rooted.commit _ _ _ _ _ up hrooted (.inl hmove)
  obtain ⟨v, hn⟩ := Arena.find?_of_place? hrooted.place
  have hvisible : (p.toNode v).kind = .visible := by
    rw [Node.kind_toNode, if_pos (by simp [Belief.isVisible, hstanding])]
  exact ⟨a₁, a₂, a₃, root, q, hadd, hexpand, hcommit, .commit htended hn hvisible (.inl hmove) hcommit,
    hrooted₃, htrimmed.alike.depth.trans hdepth, htrimmed.alike.role.trans hrole, htrimmed.alike.move,
    htrimmed.alike.isComplete.trans hcomplete, htrimmed.alike.standing.trans hstanding,
    htrimmed.alike.worlds.trans hworlds, htrimmed.expanded ▸ hexpanded,
    fun hnone => hedges (htrimmed.pristine hnone)⟩

end Lever

namespace Arena

/-- The theorem applies to a tree in which the lever has been pulled up. -/
theorem represents_lever : ∃ (a : Arena Binary64) (root : NodeId) (n : Node Binary64) (b : Belief),
    Tended Lever.game (fun _ => True) a root ∧ a.find? root = some n ∧ n.knowledge = .belief b ∧
      Lever.idle ∈ b.expanded ∧ n.move = some Lever.up ∧ Represents Lever.game a root n b := by
  obtain ⟨a₁, a₂, a₃, root, p, -, -, -, htended, hrooted, -, -, hmove, -, -, -, hexpanded, -⟩ :=
    Lever.exists_committed True
  obtain ⟨n, b, hn, hb, hrepresents⟩ :=
    htended.represents Lever.answers trivial (fun s _ => Lever.nodup_transitions s) .refl
  obtain ⟨v, hv⟩ := find?_of_place? hrooted.place
  rw [hn, Option.some.injEq] at hv
  subst hv
  cases hb
  exact ⟨a₃, root, _, _, htended, hn, rfl, hexpanded, hmove, hrepresents⟩

end Arena

end GameSearch
