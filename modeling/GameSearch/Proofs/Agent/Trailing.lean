import GameSearch.Proofs.Agent.MultiObserver
import GameSearch.Proofs.Belief.Tracking

/-!
# The trees of an agent along a play

`Place.Trails` is what the agent's own root is to a play, and `MultiObserver.Remembers` says that what the agent
remembers of it is true.  So an agent whose belief held the state of the play can develop its trees to the next
ply, `Trail.develop`, and locate the state of the play in all of them, `Ready.locatable`.
-/

namespace GameSearch

namespace Place

variable {u : Upkeep} {p q c : Place} {n : Nat} {s t : State} {view : View} {observed : Evidence} {move : Move}
  {turn : Turn} {T : Forest} {id k : NodeId}

/-- The state of a play at a ply is ahead of a place, whose owner is not committed to a move at that
ply yet. -/
structure Trails (u : Upkeep) (n : Nat) (s : State) (p : Place) : Prop where
  depth : p.depth ≤ n
  ahead : p.ahead u (n - p.depth) s
  free : p.depth = n → p.move = none
  bound : p.IsBound

lemma trails_of_mem (hdepth : p.depth = n) (hs : s ∈ p.belief.worlds) (hmove : p.move = none) :
    p.Trails u n s :=
  ⟨Nat.le_of_eq hdepth, by rw [hdepth, Nat.sub_self]; exact hs, fun _ => hmove, .inl hmove⟩

lemma Trails.step (h : p.Trails u n s) (hstep : (turn, t) ∈ u.game.transitions s) : p.Trails u (n + 1) t := by
  have hdepth := h.depth
  refine ⟨Nat.le_succ_of_le h.depth, ?_, fun heq => absurd heq (by omega), h.bound⟩
  rw [Nat.sub_add_comm h.depth]
  refine ⟨s, h.ahead, (turn, t), hstep, rfl, fun hzero => ?_⟩
  rw [Place.accepts, h.free (by omega)]

lemma Trails.detached (h : p.Trails u n s) : p.detached.Trails u n s := by
  have hahead : ∀ {j t}, p.detached.ahead u j t ↔ p.ahead u j t := ahead_congr rfl fun _ => rfl
  exact ⟨h.depth, hahead.2 h.ahead, h.free, h.bound⟩

lemma Trails.wanted (h : p.Trails u n s) (hview : u.game.viewOf s p.role = view) : p.wanted u n view s := by
  refine ⟨?_, hview⟩
  rw [show ((n : Int) - p.depth).toNat = n - p.depth by omega]
  exact h.ahead

/-- What is found for a ply with the view of a play holds the state of the play. -/
lemma Trails.mem_of_meets (h : p.Trails u n s) (hsteady : u.steady) (hview : u.game.viewOf s p.role = view)
    (hmeets : p.Meets u n view observed q) : s ∈ q.belief.worlds := by
  rcases hmeets.found with hfound | hfound | ⟨hdepth, -, rfl⟩
  · exact hfound.all hsteady h.bound s (h.wanted hview)
  · exact absurd (h.wanted hview) (hfound.unexplained hsteady h.bound s)
  · have hahead := h.ahead
    rw [show n - q.depth = 0 by omega] at hahead
    exact hahead

lemma Trails.move_of_meets (h : p.Trails u n s) (hmeets : p.Meets u n view observed q) : q.move = none :=
  hmeets.move fun hsame => h.free (Int.ofNat.inj hsame)

/-- Something is found for a ply with the view of a play, if no world was dropped so far and the view says
whether the owner is in control. -/
lemma Trails.not_unmet {f : Fault} (h : p.Trails u n s) (hsteady : u.steady)
    (hview : u.game.viewOf s p.role = view) (hcomplete : p.belief.isComplete = true)
    (hcontrol : ∀ t, p.wanted u n view t → t.isInControl p.role = s.isInControl p.role) :
    ¬p.Unmet u n view observed f := by
  rintro (⟨-, hnone, -⟩ | ⟨hdiffers, ⟨hs, ht⟩ | ⟨hsample, -⟩⟩)
  · exact hnone hsteady h.bound s (h.wanted hview)
  · exact hdiffers ((hcontrol _ hs).trans (hcontrol _ ht).symm)
  · rw [hcomplete] at hsample
    cases hsample

/-- Of a place that was found, a sample alone need not hold the state of the play. -/
lemma Trails.mem_of_limited (h : p.Trails u n s) (hsteady : u.steady) (hview : u.game.viewOf s p.role = view)
    (hmeets : p.Meets u n view observed q) (hlimited : (q.recording observed).Limited c)
    (hcomplete : c.belief.isComplete = true) : s ∈ c.belief.worlds := by
  rw [hlimited.eq_of_isComplete hcomplete]
  exact (h.mem_of_meets hsteady hview hmeets : s ∈ q.belief.worlds)

/-- What is found holds no other states than those that can follow. -/
lemma Trails.mem_of_few {l : List State} (h : p.Trails u n s) (hfew : ∀ t, p.ahead u (n - p.depth) t → t ∈ l)
    (hcomplete : p.belief.isComplete = true) (hmeets : p.Meets u n view observed q) :
    q.belief.isComplete = true ∧ ∀ t ∈ q.belief.worlds, t ∈ l := by
  rcases hmeets.found with hfound | hfound | ⟨hdepth, -, rfl⟩
  · refine ⟨hfound.isComplete.trans hcomplete, fun t ht => hfew t ?_⟩
    have hahead := (hfound.wanted t ht).1
    rw [show ((n : Int) - p.depth).toNat = n - p.depth by omega] at hahead
    exact hahead
  · rw [hfound.sample] at hcomplete
    cases hcomplete
  · refine ⟨hcomplete, fun t ht => hfew t ?_⟩
    rw [show n - q.depth = 0 by omega]
    exact ht

/-- If no world was dropped so far, none is when few states can follow. -/
lemma Trails.keeps_few {l : List State} (h : p.Trails u n s) (hcomplete : p.belief.isComplete = true)
    (hfew : ∀ t, p.ahead u (n - p.depth) t → t ∈ l) (hlength : l.length ≤ Arena.maxWorlds)
    (hmeets : p.Meets u n view observed q) (hlimited : (q.recording observed).Limited c) :
    c.belief.isComplete = true ∧ ∀ t ∈ c.belief.worlds, t ∈ l := by
  obtain ⟨hwhole, hworlds⟩ := h.mem_of_few hfew hcomplete hmeets
  cases hlimited with
  | whole _ => exact ⟨hwhole, hworlds⟩
  | sample hmany _ _ _ =>
    have hsize : q.belief.worlds.size ≤ l.length := StateSet.size_le_of_subset hworlds
    exact absurd (hsize.trans hlength) (Nat.not_le.2 hmany)

lemma accepts_of_trimmed (h : (p.committed move).Trimmed q) (hmove : turn.find? p.role = some move) :
    q.accepts turn = true := by
  have hrole : q.role = p.role := h.alike.role
  rw [Place.accepts, show q.move = some move from h.alike.move]
  simp [Turn.contains, hrole, hmove]

/-- A place trails a play on whose owner's move it is committed. -/
lemma trails_committed (h : (p.committed move).Trimmed q) (hs : s ∈ p.belief.worlds)
    (hvisible : p.belief.isVisible = true) (hstep : (turn, t) ∈ u.game.transitions s)
    (hmove : turn.find? p.role = some move) : q.Trails u (p.depth + 1) t := by
  have hdepth : q.depth = p.depth := h.alike.depth
  refine ⟨by omega, ?_, fun heq => absurd heq (by omega), .inr ?_⟩
  · have hworld : s ∈ q.belief.worlds := h.alike.worlds ▸ hs
    rw [hdepth, Nat.add_sub_cancel_left]
    exact ⟨s, hworld, (turn, t), hstep, rfl, fun _ => accepts_of_trimmed h hmove⟩
  · rw [isVisible_eq_of_standing h.alike.standing]
    exact hvisible

/-- So does the only child of such a place. -/
lemma trails_child (hsteady : u.steady) (h : (p.committed move).Trimmed q) (hsound : q.Sound u T id)
    (hsole : q.SoleChild k) (hc : T k = some c) (hs : s ∈ p.belief.worlds)
    (hstep : (turn, t) ∈ u.game.transitions s) (hmove : turn.find? p.role = some move) :
    c.Trails u (p.depth + 1) t := by
  have hexpanded : s ∈ q.belief.expanded := hsole.expanded s (h.alike.worlds ▸ hs)
  have hout : (turn, t) ∈ q.out s := by
    rw [(hsound.out s).resolve_right fun hwavers => hwavers.1.1 hsteady, List.mem_filter, mem_done]
    exact ⟨⟨hexpanded, hstep⟩, accepts_of_trimmed h hmove⟩
  obtain ⟨e, he, -, -, hnext⟩ := mem_out.1 hout
  obtain ⟨c', hc', hof⟩ := hsound.child e he
  rw [hsole.child e he, hc, Option.some.injEq] at hc'
  subst hc'
  have hdepth : c.depth = p.depth + 1 := by rw [hof.depth, h.alike.depth]; rfl
  exact trails_of_mem hdepth ((hof.worlds t).2 ⟨e, he, rfl, hnext⟩) hof.move

end Place

/-- A play of a game: its states and the turns between them. -/
structure Course (game : Game) where
  state : Nat → State
  turn : Nat → Turn
  start : state 0 = game.start

namespace MultiObserver

open Arena TreeAgent

variable {R ε : Type} [Scalar R] [Host ε] {game : Game} {u : Upkeep} {possible : State → Prop} {own role : Role}
  {x y z : Hosted (TreeAgent MultiObserver R ε) ε} {root r id : NodeId} {p : Place} {n k first last : Nat}
  {view : View} {move : Move} {worlds : StateSet} {memory : MultiObserver}

/-! ## What the agent remembers -/

/-- What an agent remembers of a play is true. -/
structure Remembers (own : Role) (c : Course game) (memory : MultiObserver) : Prop where
  views : ∀ (ply : Int) view, memory.views[ply]? = some view →
    ∃ n : Nat, ply = n ∧ game.viewOf (c.state n) own = view
  moves : ∀ (ply : Int) move, memory.moves[ply]? = some move →
    ∃ n : Nat, ply = n ∧ (c.turn n).find? own = some move

section Remembers

variable {c : Course game} {memory' : MultiObserver}

lemma Remembers.congr (h : Remembers own c memory) (hviews : memory'.views = memory.views)
    (hmoves : memory'.moves = memory.moves) : Remembers own c memory' :=
  ⟨hviews ▸ h.views, hmoves ▸ h.moves⟩

lemma Remembers.seen (h : Remembers own c memory) (hview : game.viewOf (c.state k) own = view)
    (hviews : memory'.views = memory.views.insert k view) (hmoves : memory'.moves = memory.moves) :
    Remembers own c memory' := by
  refine ⟨fun ply v hv => ?_, hmoves ▸ h.moves⟩
  rw [hviews, Std.ExtTreeMap.getElem?_insert] at hv
  split at hv
  · rename_i hsame
    rw [Option.some.injEq] at hv
    exact ⟨k, (Std.compare_eq_iff_eq.1 hsame).symm, hview.trans hv⟩
  · exact h.views ply v hv

lemma Remembers.made (h : Remembers own c memory) (hmove : (c.turn k).find? own = some move)
    (hviews : memory'.views = memory.views) (hmoves : memory'.moves = memory.moves.insert k move) :
    Remembers own c memory' := by
  refine ⟨hviews ▸ h.views, fun ply m hm => ?_⟩
  rw [hmoves, Std.ExtTreeMap.getElem?_insert] at hm
  split at hm
  · rename_i hsame
    rw [Option.some.injEq] at hm
    exact ⟨k, (Std.compare_eq_iff_eq.1 hsame).symm, hmove.trans (congrArg some hm)⟩
  · exact h.moves ply m hm

/-- What an agent remembers of a play agrees with each of its states. -/
lemma Remembers.agrees (h : Remembers own c memory) (hlt : first < last) (hworlds : c.state first ∈ worlds) :
    game.agrees (memory.evidence own first last worlds (c.state last)) n (c.state n) = true := by
  have hspans := spans_evidence memory own hlt worlds (c.state last)
  refine Game.agrees_iff.2 ⟨fun states hstates => ?_, fun known hknown role view hview => ?_⟩
  · rw [hspans.states, Std.ExtTreeMap.getElem?_insert, Std.ExtTreeMap.getElem?_insert] at hstates
    simp only [Std.compare_eq_iff_eq, Nat.cast_inj] at hstates
    split at hstates
    · rename_i hlast
      cases hstates
      exact StateSet.mem_singleton.2 (by rw [hlast])
    · split at hstates
      · rename_i hfirst
        cases hstates
        rw [← hfirst]
        exact hworlds
      · simp at hstates
  · obtain ⟨rfl, hview⟩ := hspans.views n known role view hknown hview
    obtain ⟨m, hm, hsees⟩ := h.views n view hview
    rw [Nat.cast_inj.1 hm]
    exact hsees

/-- What an agent remembers of a play leads to its later states. -/
lemma Remembers.plays (h : Remembers own c memory) (hlt : first < last) (hworlds : c.state first ∈ worlds)
    (hplayed : ∀ n < last, (c.turn n, c.state (n + 1)) ∈ game.transitions (c.state n)) :
    game.Plays (memory.evidence own first last worlds (c.state last)) (last - first) first (c.state first)
      (c.state last) := by
  have hspans := spans_evidence memory own hlt worlds (c.state last)
  suffices hfrom : ∀ count n : Nat, n + count = last →
      game.Plays (memory.evidence own first last worlds (c.state last)) count n (c.state n) (c.state last) from
    hfrom (last - first) first (by omega)
  intro count
  induction count with
  | zero =>
    intro n hlast
    exact ⟨h.agrees hlt hworlds, by rw [← hlast]; rfl⟩
  | succ count ih =>
    intro n hlast
    refine ⟨h.agrees hlt hworlds, (c.turn n, c.state (n + 1)), hplayed n (by omega), ?_, ?_⟩
    · rw [Std.ExtTreeMap.getD_eq_getD_getElem?]
      cases hturn : (memory.evidence own first last worlds (c.state last)).turns[(n : Int)]? with
      | none => exact Turn.includes_empty
      | some turn =>
        obtain ⟨move, hmove, rfl⟩ := hspans.turns n turn hturn
        obtain ⟨m, hm, hfind⟩ := h.moves n move hmove
        rw [Option.getD_some, Turn.includes_single, Turn.contains, Nat.cast_inj.1 hm]
        exact decide_eq_true hfind
    · exact_mod_cast ih (n + 1) (by omega)

end Remembers

/-! ## At a ply -/

/-- The agent's own belief is complete, or a state is among its worlds. -/
def Covers (own : Role) (s : State) (x : Hosted (TreeAgent MultiObserver R ε) ε) : Prop :=
  ∃ root b, x.own.memory.trees[own]? = some root ∧ x.own.arena.belief? root = .ok b ∧
    (b.isComplete = true ∨ s ∈ b.worlds)

/-- The trees of an agent at a ply of a play. -/
structure Trail (u : Upkeep) (own : Role) (c : Course u.game) (n : Nat)
    (x : Hosted (TreeAgent MultiObserver R ε) ε) : Prop where
  trees : ∃ root p, At u own (fun m s => s = c.state m) x root p ∧ p.Trails u n (c.state n)
  remembers : Remembers own c x.own.memory

/-- The trees of an agent that is to move at a ply of a play. -/
structure Ready (u : Upkeep) (own : Role) (c : Course u.game) (n : Nat)
    (x : Hosted (TreeAgent MultiObserver R ε) ε) : Prop where
  trees : ∃ root p, At u own (fun m s => s = c.state m) x root p ∧ p.depth = n ∧ p.move = none ∧
    c.state n ∈ p.belief.worlds
  remembers : Remembers own c x.own.memory

variable {c : Course u.game}

omit [Scalar R] [Host ε] in
lemma At.owner {course : Nat → State → Prop} (h : At u own course x root p) : p.role = own := by
  obtain ⟨q, hq⟩ := h.grove.root own root h.planted
  obtain rfl : p = q := Option.some.inj (h.place.symm.trans hq.place)
  exact hq.owner

omit [Scalar R] [Host ε] in
lemma At.inCharge {course : Nat → State → Prop} (h : At u own course x root p) : p.InCharge := by
  obtain ⟨q, hq⟩ := h.grove.root own root h.planted
  obtain rfl : p = q := Option.some.inj (h.place.symm.trans hq.place)
  exact hq.inCharge rfl

omit [Scalar R] [Host ε] in
lemma Trail.states (h : Trail u own c n x) : u.states (c.state n) := by
  obtain ⟨root, p, hat, htrails⟩ := h.trees
  exact Place.states_of_ahead (fun s hs => (hat.grove.sound.known root p hat.place).worlds s hs) htrails.ahead

/-- An agent that develops its trees is ready to move. -/
theorem Trail.develop (h : Trail u own c n x) (hstart : u.states u.game.start) (hsteady : u.steady)
    (hforgets : ¬u.recalls) (hle : (n : Int) ≤ 2147483647) (hview : u.game.viewOf (c.state n) own = view)
    (hdevelop : (SearchMethod.develop n view : Deliberation MultiObserver R ε Unit) x = .ok ⟨⟩ y)
    (hcovers : Covers own (c.state n) y) : Ready u own c n y := by
  obtain ⟨root, p, hat, htrails⟩ := h.trees
  obtain ⟨k, q, q', -, hdeveloped⟩ := hat.develop hstart hle hforgets hdevelop
  have hdepth : q'.depth = n := Int.ofNat_inj.1 hdeveloped.level
  -- The root that was found is known before it is known to hold the state of the play.
  have hforgotten := hdeveloped.keeps root _ hat.forget fun _ => False.elim
  have hin : c.state n ∈ q'.belief.worlds := by
    obtain ⟨root', b, hroot', hb, hcomplete | hheld⟩ := hcovers <;>
      rw [hforgotten.planted, Option.some.injEq] at hroot' <;> subst hroot' <;>
      cases hb.symm.trans (belief?_of_place? hforgotten.place)
    · exact htrails.mem_of_limited hsteady (by rw [hat.owner]; exact hview) hdeveloped.meets
        hdeveloped.limited hcomplete
    · exact hheld
  refine ⟨⟨k, q'.detached, hdeveloped.keeps root _ hat fun s hs => ?_, hdepth, ?_, hin⟩,
    h.remembers.seen hview hdeveloped.views hdeveloped.moves⟩
  · rw [hs, hdepth]
    exact hin
  · have hmove : q.move = none := htrails.move_of_meets hdeveloped.meets
    exact hdeveloped.limited.move.trans hmove

omit [Scalar R] [Host ε] in
lemma At.covers {course : Nat → State → Prop} (h : At u own course x root p) (hcomplete : p.belief.isComplete = true)
    (s : State) : Covers own s x :=
  ⟨root, p.belief, h.planted, belief?_of_place? h.place, .inl hcomplete⟩

/-- An agent whose own belief is complete can develop its trees and has a complete belief again, if few states
can follow and its view says whether it is in control. -/
theorem At.develop_complete {l : List State} (h : At u own (fun m s => s = c.state m) x root p)
    (htrails : p.Trails u n (c.state n)) (hstart : u.states u.game.start) (hsteady : u.steady)
    (hforgets : ¬u.recalls) (hle : (n : Int) ≤ 2147483647) (hview : u.game.viewOf (c.state n) own = view)
    (hcomplete : p.belief.isComplete = true) (hfew : ∀ t, p.ahead u (n - p.depth) t → t ∈ l)
    (hlength : l.length ≤ maxWorlds)
    (hcontrol : ∀ t ∈ l, u.game.viewOf t own = view → t.isInControl own = (c.state n).isInControl own) :
    ∃ y k q, (SearchMethod.develop n view : Deliberation MultiObserver R ε Unit) x = .ok ⟨⟩ y ∧
      At u own (fun _ _ => False) y k q ∧ q.belief.isComplete = true ∧ ∀ t ∈ q.belief.worlds, t ∈ l := by
  have hsees : u.game.viewOf (c.state n) p.role = view := by rw [h.owner, hview]
  rcases @At.develop_cases _ _ _ _ _ _ _ _ _ view _ h hstart (Int.ofNat_le.2 htrails.depth) hle hforgets with
    ⟨y, k, q, q', hdevelop, hdeveloped⟩ | ⟨y, f, -, hunmet⟩
  · have hat := hdeveloped.keeps root _ h.forget fun _ => False.elim
    obtain ⟨hstays, hworlds⟩ := htrails.keeps_few hcomplete hfew hlength hdeveloped.meets hdeveloped.limited
    exact ⟨y, k, q'.detached, hdevelop, hat, hstays, hworlds⟩
  · refine absurd hunmet (htrails.not_unmet hsteady hsees hcomplete fun t ht => ?_)
    obtain ⟨hahead, hview'⟩ := ht
    rw [show ((n : Int) - p.depth).toNat = n - p.depth by omega] at hahead
    rw [h.owner] at hview' ⊢
    exact hcontrol t (hfew t hahead) hview'

omit [Scalar R] [Host ε] in
/-- The state of the play can be located in the trees of all other roles. -/
lemma Ready.locatable (h : Ready u own c n x)
    (hplayed : ∀ m < n, (c.turn m, c.state (m + 1)) ∈ u.game.transitions (c.state m)) :
    Locatable u.game own n (c.state n) x := by
  obtain ⟨root, p, hat, hdepth, -, -⟩ := h.trees
  intro role r q hne hr hq
  obtain ⟨q', hroot⟩ := hat.grove.root role r hr
  obtain rfl : q = q' := Option.some.inj (hq.symm.trans hroot.place)
  have hholds := hroot.holds hne _ rfl
  rcases Nat.lt_or_eq_of_le (hdepth ▸ hroot.le) with hlt | heq
  · exact .inr ⟨hlt, _, hholds, h.remembers.plays hlt hholds hplayed⟩
  · exact .inl ⟨heq, heq ▸ hholds⟩

end MultiObserver

end GameSearch
