import GameSearch.Proofs.Belief.Observation

/-!
# Following a play from a belief

What each of the ways comes to in which a node for a later ply is found.  `Place.wanted` are the
states that such a node should hold, `Reached` says what holds of a node that was found: it is sound,
and so is all else but what is above it in the trees of its role.
-/

namespace GameSearch

namespace Place

variable {u : Upkeep} {p q c : Place} {ply : Int} {view : View} {s t : State}

/-- How a place for a later ply comes about: it is below the place that it was sought from, or it is
a new root. -/
inductive Stems (u : Upkeep) (p : Place) (ply : Int) (view : View) (q : Place) : Prop
  | below {j : Nat} {c : Place} : (p.depth : Int) + j = ply → p.Below u j c → (0 < j → c.Shows u) →
      (∀ s ∈ q.belief.worlds, s ∈ c.belief.worlds ∧ p.ahead u j s) → (c.observe view).Akin q →
      Stems u p ply view q
  | fresh {inControl : Bool} : (∀ s ∈ q.belief.worlds, s.isInControl p.role = inControl) →
      q.move = none → q.edges = none →
      q.belief.standing = Node.standingOf inControl view → Stems u p ply view q

/-- What is found when it is sought from a place by its worlds. -/
structure Explained (u : Upkeep) (p : Place) (ply : Int) (view : View) (q : Place) : Prop where
  wanted : ∀ s ∈ q.belief.worlds, p.wanted u ply view s
  all : u.steady → p.IsBound → ∀ s, p.wanted u ply view s → s ∈ q.belief.worlds
  isComplete : q.belief.isComplete = p.belief.isComplete

/-- A state that all that was observed leads to. -/
def Recalled (u : Upkeep) (observed : Evidence) (s : State) : Prop :=
  Arena.Ends u (u.game.fromStart observed) ({u.game.start} : StateSet).toList s

/-- What is found when it is sought by all that was observed, since no world explains the view. -/
structure Recovered (u : Upkeep) (p : Place) (ply : Int) (view : View) (observed : Evidence)
    (q : Place) : Prop where
  unexplained : u.steady → p.IsBound → ∀ s, ¬p.wanted u ply view s
  sample : p.belief.isComplete = false
  recalled : ∀ s ∈ q.belief.worlds, Recalled u observed s
  all : q.belief.isComplete = true → ∀ s, Recalled u observed s → s ∈ q.belief.worlds
  few : q.belief.worlds.size ≤ Arena.maxWorlds
  fresh : q.edges = none

/-- Why no place for a ply is found: there is no state for it, or the states that there are differ on
whether the owner is in control. -/
inductive Unmet (u : Upkeep) (p : Place) (ply : Int) (view : View) (observed : Evidence) (f : Fault) :
    Prop
  | unexplained : f.kind = .mismatch → (u.steady → p.IsBound → ∀ s, ¬p.wanted u ply view s) →
      (p.belief.isComplete = false → ∀ s, ¬Recalled u observed s) → Unmet u p ply view observed f
  | divided {s t : State} : s.isInControl p.role ≠ t.isInControl p.role →
      (p.wanted u ply view s ∧ p.wanted u ply view t ∨
        p.belief.isComplete = false ∧ Recalled u observed s ∧ Recalled u observed t) →
      Unmet u p ply view observed f

/-- What is found when a place is sought from itself, and its owner is known to have the view. -/
structure Confirmed (p : Place) (ply : Int) (view : View) (q : Place) : Prop where
  depth : (p.depth : Int) = ply
  view : p.belief.view? = some view
  same : q = p

/-- A place for a later ply, found by the worlds of another one or by all that was observed. -/
structure Meets (u : Upkeep) (p : Place) (ply : Int) (view : View) (observed : Evidence) (q : Place) :
    Prop where
  stems : p.Stems u ply view q
  found : p.Explained u ply view q ∨ p.Recovered u ply view observed q ∨ p.Confirmed ply view q

lemma Alike.ahead (h : p.Alike q) : ∀ {j s}, q.ahead u j s ↔ p.ahead u j s
  | 0, s => by simp only [Place.ahead, h.worlds]
  | j + 1, t => by simp only [Place.ahead, h.ahead (j := j), h.toAkin.accepts]

lemma Alike.wanted (h : p.Alike q) : q.wanted u ply view s ↔ p.wanted u ply view s := by
  simp only [Place.wanted, h.ahead, h.depth, h.role]

lemma Akin.isBound (h : p.Akin q) (hbound : p.IsBound) : q.IsBound := by
  rw [IsBound, h.move, isVisible_eq_of_standing h.standing]
  exact hbound

lemma Alike.below {j : Nat} (h : p.Alike q) (hbelow : q.Below u j c) : p.Below u j c := by
  induction hbelow with
  | here hakin => exact .here (h.toAkin.trans hakin)
  | step _ hw hstands hstep haccepts hdepth hrole hmove hcomplete hstanding hhistory ih =>
    refine .step ih (h.ahead.1 hw) hstands hstep (fun hj => ?_) hdepth hrole hmove hcomplete hstanding
      hhistory
    rw [← h.toAkin.accepts]
    exact haccepts hj

variable {observed : Evidence}

/-- Whether a place meets what was sought depends on the worlds that it was sought from, and not on
what is below them. -/
lemma Alike.meets (h : p.Alike q) (hply : (p.depth : Int) ≠ ply)
    (hmeets : q.Meets u ply view observed c) : p.Meets u ply view observed c := by
  constructor
  · rcases hmeets.stems with ⟨hj, hbelow, hshows, hworlds, hakin⟩ | ⟨hcontrol, hmove, hedges, hstanding⟩
    · exact .below (by rw [← h.depth]; exact hj) (h.below hbelow) hshows
        (fun s hs => ⟨(hworlds s hs).1, h.ahead.1 (hworlds s hs).2⟩) hakin
    · exact .fresh (by rw [← h.role]; exact hcontrol) hmove hedges hstanding
  · rcases hmeets.found with hfound | hfound | hfound
    · exact .inl ⟨fun s hs => h.wanted.1 (hfound.wanted s hs), fun hsteady hbound s hs =>
        hfound.all hsteady (h.toAkin.isBound hbound) s (h.wanted.2 hs),
        hfound.isComplete.trans h.isComplete⟩
    · exact .inr (.inl ⟨fun hsteady hbound s hs =>
        hfound.unexplained hsteady (h.toAkin.isBound hbound) s (h.wanted.2 hs),
        h.isComplete.symm.trans hfound.sample, hfound.recalled, hfound.all, hfound.few, hfound.fresh⟩)
    · exact absurd (h.depth ▸ hfound.depth) hply

lemma Alike.unmet {f : Fault} (h : p.Alike q) (hunmet : q.Unmet u ply view observed f) :
    p.Unmet u ply view observed f := by
  cases hunmet with
  | unexplained hkind hnone hrecalled =>
    exact .unexplained hkind (fun hsteady hbound s hs =>
      hnone hsteady (h.toAkin.isBound hbound) s (h.wanted.2 hs))
      fun hsample => hrecalled (h.isComplete.trans hsample)
  | divided hdiffers hboth =>
    rw [h.role] at hdiffers
    rw [h.wanted, h.wanted, h.isComplete] at hboth
    exact .divided hdiffers hboth

/-- The owner of a place that was found is bound by its move, if that is so where it was sought
from. -/
lemma Meets.isBound (h : p.Meets u ply view observed q) (hbound : p.IsBound) : q.IsBound := by
  rcases h.stems with ⟨-, hbelow, -, -, hakin⟩ | ⟨-, hmove, -, -⟩
  · cases hbelow with
    | here hsame =>
      refine hakin.isBound ?_
      rw [IsBound, observe_isVisible]
      exact hsame.isBound hbound
    | step _ _ _ _ _ _ _ hmove => exact .inl (hakin.move.trans hmove)
  · exact .inl hmove

/-- The owner of a place that was found has not moved there yet. -/
lemma Meets.move (h : p.Meets u ply view observed q) (hfree : (p.depth : Int) = ply → p.move = none) :
    q.move = none := by
  rcases h.stems with ⟨hj, hbelow, -, -, hakin⟩ | ⟨-, hmove, -, -⟩
  · cases hbelow with
    | here hsame => exact hakin.move.trans (hsame.move.trans (hfree (by omega)))
    | step _ _ _ _ _ _ _ hmove => exact hakin.move.trans hmove
  · exact hmove

/-- What the owner of a place has observed up to a ply at which it has the given view. -/
def observedUpTo (p : Place) (ply : Int) (view : View) : Evidence :=
  (match p.move with
    | some move => if ply > p.depth then p.belief.history.withTurn p.depth (.single p.role move)
      else p.belief.history
    | none => p.belief.history).withView ply p.role view

lemma Known.observedUpTo (h : p.Known u) (hply : (p.depth : Int) ≤ ply) (view : View) :
    (p.observedUpTo ply view).Recorded ply := by
  have hhistory := h.history.mono hply
  have hnonneg : (0 : Int) ≤ p.depth := Int.natCast_nonneg _
  unfold Place.observedUpTo
  cases p.move with
  | none => exact hhistory.withView ⟨by omega, Int.le_refl ply⟩ p.role view
  | some move =>
    simp only
    split
    · exact (hhistory.withTurn ⟨hnonneg, hply⟩ _).withView ⟨by omega, Int.le_refl ply⟩ p.role view
    · exact hhistory.withView ⟨by omega, Int.le_refl ply⟩ p.role view

def recording (p : Place) (history : Evidence) : Place :=
  { p with belief := { p.belief with history := history } }

end Place

namespace Arena

variable {R : Type} {u : Upkeep} {but : NodeId → Prop} {a a' a'' : Arena R} {id k : NodeId}
  {p q c : Place} {view : View} {states : StateSet} {role : Role} {ply : Int}

/-! ## Nodes found -/

/-- All is sound but what is above a place in the trees of its role. -/
def SoundBelow (u : Upkeep) (a : Arena R) (k : NodeId) (q : Place) : Prop :=
  ∃ but : NodeId → Prop, a.Sound u but ∧ Forest.Isolated but k q.depth a.place? ∧
    ∀ x r, but x → a.place? x = some r → r.role = q.role

/-- The nodes that edges lead from to a node. -/
def Precedes (a : Arena R) (k x : NodeId) : Prop :=
  ∃ p, a.place? x = some p ∧ ∃ e ∈ p.edgeList, e.child = k

lemma Sound.precedes {r : Place} (h : a.Sound u but) (hq : a.place? k = some q) {x : NodeId}
    (hx : a.Precedes k x) (hr : a.place? x = some r) : r.role = q.role ∧ r.depth < q.depth := by
  obtain ⟨r', hr', e, he, rfl⟩ := hx
  rw [hr, Option.some.injEq] at hr'
  subst hr'
  obtain ⟨c, hc, hdepth, hrole⟩ := h.graded x r e hr he
  rw [hq, Option.some.injEq] at hc
  rw [hc]
  exact ⟨hrole.symm, by omega⟩

lemma Sound.isolated (h : a.AllSound u) (hq : a.place? k = some q) :
    Forest.Isolated (a.Precedes k) k q.depth a.place? :=
  ⟨fun _ _ hx hr => (h.precedes hq hx hr).2, fun _ r hr hx _ he heq => hx ⟨r, hr, _, he, heq⟩⟩

lemma Sound.soundBelow (h : a.AllSound u) (hq : a.place? k = some q) : a.SoundBelow u k q :=
  ⟨a.Precedes k, h.mono fun _ hfalse => hfalse.elim, h.isolated hq,
    fun _ _ hx hr => (h.precedes hq hx hr).1⟩

lemma SoundBelow.sound (h : SoundBelow u a k q) (hq : a.place? k = some q) : q.Sound u a.place? k := by
  obtain ⟨but, hsound, hisolated, -⟩ := h
  exact hsound.kept k q hq (hisolated.not_but hq)

lemma SoundBelow.narrowed (hsound : a'.Sound u but) (hisolated : Forest.Isolated but k c.depth a.place?)
    (hroles : ∀ x r, but x → a.place? x = some r → r.role = c.role) (hdepth : q.depth = c.depth)
    (hrole : q.role = c.role) (hthins : Forest.Thins a.place? a'.place?) : SoundBelow u a' k q := by
  refine ⟨but, hsound, ?_, fun x r hx hr => ?_⟩
  · rw [hdepth]
    exact hisolated.congr hthins
  · obtain ⟨r', hr', -, hrole', -⟩ := hthins x r hr
    rw [hrole', hroles x r' hx hr', hrole]

/-- A node for a ply in a tree of a role, with all else that is left as it was. -/
structure Reached (u : Upkeep) (role : Role) (ply : Int) (k : NodeId) (q : Place) (a a' : Arena R) :
    Prop where
  place : a'.place? k = some q
  owner : q.role = role
  level : (q.depth : Int) = ply
  sound : a'.SoundBelow u k q
  spares : Forest.Spares role a.place? a'.place?

lemma Reached.after (h : Reached u role ply k q a' a'') (hspares : Forest.Spares role a.place? a'.place?) :
    Reached u role ply k q a a'' :=
  ⟨h.place, h.owner, h.level, h.sound, hspares.trans h.spares⟩

/-- The owner of a node is seen to have a view. -/
lemma observeAt_reaches (view : View) (h : a.AllSound u) (hc : a.place? k = some c)
    (hmeets : ∃ w ∈ c.belief.worlds, w ∈ states) :
    ∃ a' q, observeAt k view states a = .ok ⟨⟩ a' ∧ Reached u c.role c.depth k q a a' ∧
      (c.observe view).Akin q ∧
      ∀ w, w ∈ q.belief.worlds ↔ w ∈ c.belief.worlds ∧ w ∈ states := by
  obtain ⟨a', q, hrun, hnarrowed, hworlds⟩ := observeAt_yields view
    (h.mono fun _ hfalse => hfalse.elim) hc (h.isolated hc) hmeets
  refine ⟨a', q, hrun, ⟨hnarrowed.place, hnarrowed.akin.role, ?_, ?_, hnarrowed.spares⟩,
    hnarrowed.akin, hworlds⟩
  · rw [hnarrowed.akin.depth]
    rfl
  · exact .narrowed hnarrowed.sound (h.isolated hc) (fun _ _ hx hr => (h.precedes hc hx hr).1)
      hnarrowed.akin.depth hnarrowed.akin.role hnarrowed.thins

/-- A new root, unless its worlds differ on whether the owner is in control. -/
lemma addBelief_reaches (view : View) (h : a.AllSound u) (hply : 0 ≤ ply) (hne : states.isEmpty = false)
    (hknown : ∀ s ∈ states, u.states s) (isComplete : Bool) :
    (∃ inControl k a' q, addBelief role ply view states isComplete a = .ok k a' ∧
        Reached u role ply k q a a' ∧ (∀ s ∈ states, s.isInControl role = inControl) ∧
        q = Place.root ply.toNat role states isComplete (Node.standingOf inControl view) hne) ∨
      (∃ s ∈ states, ∃ t ∈ states, s.isInControl role ≠ t.isInControl role) ∧
        addBelief role ply view states isComplete a =
          .error (.controlDiffers role.text view.text) a := by
  rcases addBelief_cases view isComplete h hply hne hknown with
    ⟨inControl, k, a', hrun, hall, hnone, hsound, hplaces⟩ | hdiffers
  · let q := Place.root ply.toNat role states isComplete (Node.standingOf inControl view) hne
    have hself : a'.place? k = some q := by rw [hplaces, Function.update_self]
    refine .inl ⟨inControl, k, a', q, hrun, ⟨hself, rfl, ?_, hsound.soundBelow hself, ?_⟩, hall, rfl⟩
    · exact Int.toNat_of_nonneg hply
    · rw [hplaces]
      refine .update fun p hp => ?_
      rw [hnone] at hp
      cases hp
  · exact .inr hdiffers

/-- What looking for a node comes to: it is found, or there is a reason why not. -/
def Sought (u : Upkeep) (p : Place) (ply : Int) (view : View) (observed : Evidence) (a : Arena R)
    (result : EStateM.Result Fault (Arena R) NodeId) : Prop :=
  (∃ a' k q, result = .ok k a' ∧ Reached u p.role ply k q a a' ∧ p.Meets u ply view observed q) ∨
    ∃ a' f, result = .error f a' ∧ p.Unmet u ply view observed f

/-- Some states are all that is wanted, as far as that can be said. -/
structure Answers (u : Upkeep) (p : Place) (ply : Int) (view : View) (states : StateSet) : Prop where
  nonempty : states.isEmpty = false
  wanted : ∀ s ∈ states, p.wanted u ply view s
  all : u.steady → p.IsBound → ∀ s, p.wanted u ply view s → s ∈ states

/-- A place below is narrowed down to the states that are wanted. -/
lemma Answers.observeAt {j : Nat} (hanswers : Answers u p ply view states) (h : a.AllSound u)
    (hj : (p.depth : Int) + j = ply) (hc : a.place? k = some c) (hbelow : p.Below u j c)
    (hshows : 0 < j → c.Shows u) (hsub : ∀ s ∈ states, s ∈ c.belief.worlds)
    (observed : Evidence) : ∃ a' q, observeAt k view states a = .ok ⟨⟩ a' ∧ Reached u p.role ply k q a a' ∧
      p.Meets u ply view observed q := by
  obtain ⟨s, hs⟩ := StateSet.isEmpty_eq_false_iff.1 hanswers.nonempty
  obtain ⟨a', q, hrun, hreached, hakin, hworlds⟩ := observeAt_reaches view h hc
    ⟨s, hsub s hs, hs⟩
  have hmem : ∀ t, t ∈ q.belief.worlds ↔ t ∈ states := fun t =>
    (hworlds t).trans ⟨And.right, fun ht => ⟨hsub t ht, ht⟩⟩
  rw [hbelow.role, hbelow.depth, show ((p.depth + j : Nat) : Int) = ply by push_cast; exact hj] at hreached
  refine ⟨a', q, hrun, hreached, ?_, .inl ⟨fun t ht => hanswers.wanted t ((hmem t).1 ht),
    fun hsteady hbound t ht => (hmem t).2 (hanswers.all hsteady hbound t ht), ?_⟩⟩
  swap
  · rw [hakin.isComplete, Place.observe_isComplete, hbelow.isComplete]
  · refine .below hj hbelow hshows (fun t ht => ?_) hakin
    have hin := (hmem t).1 ht
    refine ⟨hsub t hin, ?_⟩
    have hahead := (hanswers.wanted t hin).1
    rwa [show (ply - (p.depth : Int)).toNat = j by omega] at hahead

/-- A root is made of the states that are wanted. -/
lemma Answers.addBelief {p₁ : Place} (hanswers : Answers u p ply view states) (h : a.AllSound u)
    (hp : a.place? id = some p₁) (hworlds : p.Alike p₁) (hply : 0 ≤ ply) (observed : Evidence) :
    Sought u p ply view observed a (addBelief p.role ply view states p.belief.isComplete a) := by
  have hknown : ∀ s ∈ states, u.states s := fun s hs =>
    Place.states_of_ahead (fun t ht => (h.known id p₁ hp).worlds t (hworlds.worlds ▸ ht))
      (hanswers.wanted s hs).1
  rcases addBelief_reaches view h hply hanswers.nonempty hknown p.belief.isComplete with
    ⟨inControl, k, a', q, hrun, hreached, hall, rfl⟩ | ⟨⟨s, hs, t, ht, hdiffers⟩, hrun⟩
  · exact .inl ⟨a', k, _, hrun, hreached, .fresh hall rfl rfl rfl,
      .inl ⟨hanswers.wanted, hanswers.all, rfl⟩⟩
  · exact .inr ⟨a, _, hrun, .divided hdiffers (.inl ⟨hanswers.wanted s hs, hanswers.wanted t ht⟩)⟩

/-! ## Through the tree -/

lemma mem_foldl_insertMany {found : List (NodeId × StateSet)} {s : State} :
    s ∈ found.foldl (fun all (x : NodeId × StateSet) => all.insertMany x.2.toList) (∅ : StateSet) ↔
      ∃ x ∈ found, s ∈ x.2 := by
  suffices h : ∀ (l : List (NodeId × StateSet)) (all : StateSet),
      s ∈ l.foldl (fun all (x : NodeId × StateSet) => all.insertMany x.2.toList) all ↔
        s ∈ all ∨ ∃ x ∈ l, s ∈ x.2 by
    rw [h]
    simp
  intro l
  induction l with
  | nil => simp
  | cons x l ih =>
    intro all
    have hx : s ∈ all.insertMany x.2.toList ↔ s ∈ all ∨ s ∈ x.2 := by
      rw [Std.ExtTreeSet.mem_insertMany_list]
      simp
    rw [List.foldl_cons, ih, hx]
    simp only [List.mem_cons, exists_eq_or_imp, or_assoc]

/-- Nodes of a frontier with the worlds of theirs that are wanted. -/
structure Candidates (u : Upkeep) (p : Place) (j : Nat) (ply : Int) (view : View) (a : Arena R)
    (found : List (NodeId × StateSet)) : Prop where
  place : ∀ x ∈ found, ∃ c, a.place? x.1 = some c ∧ p.Below u j c ∧ (0 < j → c.Shows u) ∧
    ∀ s ∈ x.2, s ∈ c.belief.worlds
  nonempty : ∀ x ∈ found, ∃ s, s ∈ x.2
  wanted : ∀ x ∈ found, ∀ s ∈ x.2, p.wanted u ply view s
  all : u.steady → ∀ s, p.wanted u ply view s → ∃ x ∈ found, s ∈ x.2

lemma Frontier.candidates {ids : List NodeId} {j : Nat} (view : View) (h : Frontier u p j a.place? ids)
    (hcovers : u.steady → Covers u p j a.place? ids) (hsound : a.AllSound u)
    (hj : (p.depth : Int) + j = ply) :
    ∃ found, candidates u.game p.role view ids a = .ok found a ∧ Candidates u p j ply view a found := by
  have hcount : (ply - (p.depth : Int)).toNat = j := by omega
  refine ⟨_, candidates_run h hsound, ?_, fun x hx => ?_, ?_, fun hsteady s hs => ?_⟩
  · intro x hx
    obtain ⟨k, hk, rfl⟩ := List.mem_map.1 (List.mem_of_mem_filter hx)
    obtain ⟨c, hc, hbelow, -, hshows⟩ := h.place k hk
    exact ⟨c, hc, hbelow, hshows, fun s hs => worldsAt_of_place? hc ▸ (mem_seeing.1 hs).1⟩
  · exact StateSet.isEmpty_eq_false_iff.1 (by simpa using (List.mem_filter.1 hx).2)
  · intro x hx s hs
    obtain ⟨k, hk, rfl⟩ := List.mem_map.1 (List.mem_of_mem_filter hx)
    obtain ⟨c, hc, -, hahead, -⟩ := h.place k hk
    obtain ⟨hin, hview⟩ := mem_seeing.1 hs
    rw [worldsAt_of_place? hc] at hin
    exact ⟨by rw [hcount]; exact hahead s hin, hview⟩
  · obtain ⟨hahead, hview⟩ := hs
    rw [hcount] at hahead
    obtain ⟨k, hk, c, hc, hin⟩ := hcovers hsteady s hahead
    have hsees : s ∈ seeing u p.role view (a.worldsAt k) := by
      rw [mem_seeing, worldsAt_of_place? hc]
      exact ⟨hin, hview⟩
    refine ⟨_, List.mem_filter.2 ⟨List.mem_map_of_mem hk, ?_⟩, hsees⟩
    have hne := StateSet.isEmpty_eq_false_iff.2 ⟨s, hsees⟩
    rw [hne]
    rfl

lemma Candidates.answers_single {j : Nat} {x : NodeId × StateSet}
    (h : Candidates u p j ply view a [x]) : Answers u p ply view x.2 := by
  have hself := List.mem_singleton_self x
  refine ⟨StateSet.isEmpty_eq_false_iff.2 (h.nonempty x hself), h.wanted x hself,
    fun hsteady _ s hs => ?_⟩
  obtain ⟨y, hy, hin⟩ := h.all hsteady s hs
  rwa [List.mem_singleton.1 hy] at hin

lemma Candidates.answers_union {j : Nat} {x : NodeId × StateSet} {rest : List (NodeId × StateSet)}
    (h : Candidates u p j ply view a (x :: rest)) : Answers u p ply view ((x :: rest).foldl
      (fun all (x : NodeId × StateSet) => all.insertMany x.2.toList) ∅) := by
  refine ⟨StateSet.isEmpty_eq_false_iff.2 ?_, fun s hs => ?_, fun hsteady _ s hs => ?_⟩
  · obtain ⟨s, hs⟩ := h.nonempty x List.mem_cons_self
    exact ⟨s, mem_foldl_insertMany.2 ⟨x, List.mem_cons_self, hs⟩⟩
  · obtain ⟨y, hy, hs⟩ := mem_foldl_insertMany.1 hs
    exact h.wanted y hy s hs
  · exact mem_foldl_insertMany.2 (h.all hsteady s hs)

/-- What growing the tree comes to. -/
theorem developThroughTree_cases (view : View) (h : a.AllSound u) (hp : a.place? id = some p)
    (hply : (p.depth : Int) < ply) (observed : Evidence) :
    (∃ a' p', developThroughTree u.game id ply view a = .ok none a' ∧ a'.AllSound u ∧
        a'.place? id = some p' ∧ p.Alike p' ∧ Forest.Spares p.role a.place? a'.place?) ∨
      (∃ a' k q, developThroughTree u.game id ply view a = .ok (some k) a' ∧
        Reached u p.role ply k q a a' ∧ p.Meets u ply view observed q) ∨
      ∃ a' f, developThroughTree u.game id ply view a = .error f a' ∧
        p.Unmet u ply view observed f := by
  obtain ⟨v, hnode⟩ := node_run hp
  obtain ⟨j, hj⟩ : ∃ j : Nat, (p.depth : Int) + (j + 1 : Nat) = ply :=
    ⟨(ply - p.depth).toNat - 1, by omega⟩
  have hcount : (ply - (p.depth : Int)).toNat = j + 1 := by omega
  cases hcomplete : p.belief.isComplete with
  | false =>
    refine .inl ⟨a, p, ?_, h, hp, .refl p, .refl⟩
    rw [developThroughTree, Action.bind_of_ok hnode, Place.toNode_depth, hcount,
      Action.bind_of_ok (growFrontiers_sample j hp hcomplete)]
    rfl
  | true =>
    obtain ⟨r, a₁, hgrow, hsound₁, hgrows, hnext⟩ := growFrontiers_yields (j + 1) h
      (frontier_self hp) hcomplete
    obtain ⟨p₁, hp₁, hextends, -, hworlds₁⟩ := hgrows id p hp
    have halike : p.Alike p₁ := ⟨hextends.toAkin, hworlds₁.resolve_left fun hlt => by omega⟩
    cases r with
    | none =>
      refine .inl ⟨a₁, p₁, ?_, hsound₁, hp₁, halike, hgrows.spares⟩
      rw [developThroughTree, Action.bind_of_ok hnode, Place.toNode_depth, hcount,
        Action.bind_of_ok hgrow]
      rfl
    | some ids =>
      obtain ⟨hfrontier, hcovers⟩ := hnext ids rfl
      rw [Nat.zero_add] at hfrontier hcovers
      obtain ⟨found, hfound, hcandidates⟩ := hfrontier.candidates view
        (fun hsteady => hcovers hsteady (covers_self hp)) hsound₁ hj
      refine .inr ?_
      rw [developThroughTree, Action.bind_of_ok hnode, Place.toNode_depth, hcount,
        Action.bind_of_ok hgrow, Place.toNode_role]
      simp only
      rw [Action.bind_of_ok hfound]
      match found with
      | [] =>
        refine .inr ⟨a₁, _, rfl, .unexplained rfl (fun hsteady _ s hs => ?_) (by simp [hcomplete])⟩
        obtain ⟨x, hx, -⟩ := hcandidates.all hsteady s hs
        cases hx
      | [(k, states)] =>
        obtain ⟨c, hc, hbelow, hshows, hsub⟩ := hcandidates.place _ (List.mem_singleton_self _)
        obtain ⟨a', q, hrun, hreached, hrest⟩ :=
          hcandidates.answers_single.observeAt hsound₁ hj hc hbelow hshows hsub observed
        refine .inl ⟨a', k, q, ?_, hreached.after hgrows.spares, hrest⟩
        exact (Action.bind_of_ok hrun).trans rfl
      | x :: y :: rest =>
        have hadd := hcandidates.answers_union.addBelief hsound₁ hp₁ halike (by omega) observed
        rw [hcomplete] at hadd
        rcases hadd with ⟨a', k, q, hrun, hreached, hrest⟩ | ⟨a', f, hrun, hunmet⟩
        · refine .inl ⟨a', k, q, ?_, hreached.after hgrows.spares, hrest⟩
          exact (Action.bind_of_ok hrun).trans rfl
        · exact .inr ⟨a', f, Action.bind_of_error hrun, hunmet⟩

/-! ## From the initial state -/

lemma offset_fromStart {observed : Evidence} (hobserved : observed.Recorded ply) :
    (u.game.fromStart observed).offset = 0 := by
  refine Evidence.offset_eq (Evidence.mem_plies_withStates.2 (.inl rfl)) (by decide) fun x hx => ?_
  rcases Evidence.mem_plies_withStates.1 hx with rfl | hx
  · exact Int.le_refl 0
  · exact (hobserved.plies x hx).1

lemma origins?_fromStart {observed : Evidence} (hobserved : observed.Recorded ply) :
    u.game.origins? (u.game.fromStart observed) = .ok ({u.game.start} : StateSet).toList := by
  have hstates : (u.game.fromStart observed).states[(0 : Int)]? = some {u.game.start} := by
    simp [Game.fromStart, Evidence.withStates]
  rw [Game.origins?, offset_fromStart hobserved, hstates]

lemma states_of_recalled {observed : Evidence} (hstart : u.states u.game.start) {s : State}
    (h : Place.Recalled u observed s) : u.states s := by
  obtain ⟨t, ht, hplays⟩ := h
  rw [Std.ExtTreeSet.mem_toList, StateSet.mem_singleton] at ht
  exact u.answers.plays (ht ▸ hstart) hplays

/-- What making a belief anew comes to, for a sample that holds no wanted state. -/
theorem resample_cases {observed : Evidence} (h : a.AllSound u) (hstart : u.states u.game.start)
    (hply : 0 ≤ ply) (hobserved : observed.Recorded ply) (hsample : p.belief.isComplete = false)
    (hnone : u.steady → p.IsBound → ∀ s, ¬p.wanted u ply view s) :
    Sought u p ply view observed a (resample u.game p.role ply view observed a) := by
  have horigins := origins?_fromStart (u := u) hobserved
  obtain ⟨states, isComplete, hlast, hsub, hfew, hne, hall⟩ := someLastStates?_eq horigins
    (fun s hs => by
      rw [Std.ExtTreeSet.mem_toList, StateSet.mem_singleton] at hs
      exact hs ▸ hstart) (show 0 < maxWorlds by decide)
  have hrun : resample u.game p.role ply view observed a =
      (do
        if states.isEmpty then
          throw (.noWorldAgrees ply p.role.text (u.game.fromStart observed).text)
        addBelief p.role ply view states isComplete : Action (Arena R) NodeId) a :=
    Action.bind_of_ok (Action.lift_of_ok hlast a)
  rw [hrun]
  cases hempty : states.isEmpty with
  | true =>
    refine .inr ⟨a, _, rfl, .unexplained rfl hnone fun _ s hs => ?_⟩
    rw [hne ⟨s, hs⟩] at hempty
    cases hempty
  | false =>
    have hknown : ∀ s ∈ states, u.states s := fun s hs => states_of_recalled hstart (hsub s hs)
    rcases addBelief_reaches view h hply hempty hknown isComplete with
      ⟨inControl, k, a', q, hrun, hreached, hcontrol, rfl⟩ | ⟨⟨s, hs, t, ht, hdiffers⟩, hrun⟩
    · exact .inl ⟨a', k, _, hrun, hreached, .fresh hcontrol rfl rfl rfl,
        .inr (.inl ⟨hnone, hsample, hsub, hall, hfew, rfl⟩)⟩
    · exact .inr ⟨a, _, hrun, .divided hdiffers (.inr ⟨hsample, hsub s hs, hsub t ht⟩)⟩

/-! ## Through the developments -/

lemma markSampled_sample (hc : a.place? k = some c) (hsample : c.belief.isComplete = false) :
    markSampled k a = .ok ⟨⟩ a := by
  change markSampledWithin (a.slots.size + 1) k a = _
  rw [markSampledWithin, Action.bind_of_ok (belief_run hc), hsample]
  rfl

/-- What listing the developments comes to. -/
theorem developThroughDevelopments_cases {observed : Evidence} (h : a.AllSound u)
    (hp : a.place? id = some p) (hstart : u.states u.game.start) (hply : (p.depth : Int) < ply)
    (hle : ply ≤ 2147483647) (hobserved : observed.Recorded ply) :
    Sought u p ply view observed a
      (developThroughDevelopments u.game id ply view observed a) := by
  obtain ⟨v, hnode⟩ := node_run hp
  have horigins : u.game.origins? (p.evidence ply view) = .ok p.belief.worlds.toList :=
    Place.evidence_origins hply (by omega)
  obtain ⟨states, hlast, hmem⟩ := lastStates?_eq horigins
    (fun s hs => (h.known id p hp).worlds s (Std.ExtTreeSet.mem_toList.1 hs))
  have hwanted : ∀ s ∈ states, p.wanted u ply view s :=
    fun s hs => Place.wanted_of_ends hply (by omega) ((hmem s).1 hs)
  have hall : u.steady → p.IsBound → ∀ s, p.wanted u ply view s → s ∈ states :=
    fun _ hbound s hs => (hmem s).2 ((Place.ends_evidence hply (by omega) hbound).2 hs)
  have hrun : developThroughDevelopments u.game id ply view observed a = _ :=
    (Action.bind_of_ok hnode).trans ((Action.bind_of_ok (belief_run hp)).trans
      (Action.bind_of_ok (Action.lift_of_ok hlast a)))
  rw [hrun, Place.toNode_role, Place.toNode_depth]
  cases hempty : states.isEmpty with
  | true =>
    have hnone : u.steady → p.IsBound → ∀ s, ¬p.wanted u ply view s := by
      intro hsteady hbound s hs
      rw [StateSet.isEmpty_eq_false_iff.2 ⟨s, hall hsteady hbound s hs⟩] at hempty
      cases hempty
    cases hcomplete : p.belief.isComplete with
    | true => exact .inr ⟨a, _, rfl, .unexplained rfl hnone (by simp [hcomplete])⟩
    | false => exact resample_cases h hstart (by omega) hobserved hcomplete hnone
  | false =>
    have hanswers : Answers u p ply view states := ⟨hempty, hwanted, hall⟩
    have hfrontier : Frontier u p (0 + (ply - p.depth).toNat) a.place?
        (a.nodesBelow maxFrontier (ply - p.depth).toNat [id]) :=
      frontier_nodesBelow h (frontier_self hp)
    rw [Nat.zero_add] at hfrontier
    obtain ⟨r, hholder, hfound⟩ := soleHolder?_run states fun k hk =>
      (hfrontier.place k hk).imp fun _ hc => hc.1
    simp only [Bool.false_eq_true, if_false]
    rw [Action.bind_of_ok (Action.get_run a), Action.bind_of_ok hholder]
    cases r with
    | none => exact hanswers.addBelief h hp (.refl p) (by omega) observed
    | some k =>
      obtain ⟨hk, hheld⟩ := hfound k rfl
      obtain ⟨c, hc, hbelow, -, hshows⟩ := hfrontier.place k hk
      rw [worldsAt_of_place? hc] at hheld
      obtain ⟨a', q, hobserve, hreached, hmeets⟩ :=
        hanswers.observeAt h (by omega) hc hbelow hshows hheld observed
      refine .inl ⟨a', k, q, ?_, hreached, hmeets⟩
      cases hcomplete : p.belief.isComplete with
      | true => exact Action.bind_of_ok hobserve
      | false =>
        refine (Action.bind_of_ok (markSampled_sample hc ?_)).trans (Action.bind_of_ok hobserve)
        rw [hbelow.isComplete, hcomplete]

/-! ## At the same ply -/

/-- A place whose owner is known to have the view is the one that is sought. -/
lemma developHere_confirmed (hp : a.place? id = some p) (hply : (p.depth : Int) = ply)
    (hview : p.belief.view? = some view) (observed : Evidence) :
    developHere u.game id ply view observed a = .ok id a ∧ p.Meets u ply view observed p := by
  obtain ⟨v, hnode⟩ := node_run hp
  have hsame : p.observe view = p := Place.observe_eq_self fun _ => Belief.view?_eq_some.1 hview
  refine ⟨?_, ?_, .inr (.inr ⟨hply, hview, rfl⟩)⟩
  · rw [developHere, Action.bind_of_ok hnode, Action.bind_of_ok (belief_run hp), if_pos hview]
    rfl
  · exact .below (j := 0) (by simpa using hply) (.here (.refl p))
      (fun hj => absurd hj (Nat.lt_irrefl 0)) (fun s hs => ⟨hs, hs⟩) (hsame.symm ▸ .refl p)

/-- What narrowing a belief down at its own ply comes to. -/
theorem developHere_cases {observed : Evidence} (h : a.AllSound u) (hp : a.place? id = some p)
    (hstart : u.states u.game.start) (hply : (p.depth : Int) = ply)
    (hobserved : observed.Recorded ply) :
    Sought u p ply view observed a (developHere u.game id ply view observed a) := by
  obtain ⟨v, hnode⟩ := node_run hp
  have hagreeing := @agreeing?_eq u p.role view _ (h.known id p hp).worlds
  have hwanted : ∀ s, p.wanted u ply view s ↔ s ∈ seeing u p.role view p.belief.worlds := by
    intro s
    rw [Place.wanted, show (ply - (p.depth : Int)).toNat = 0 by omega, mem_seeing]
    rfl
  by_cases hview : p.belief.view? = some view
  · obtain ⟨hfind, hmeets⟩ := developHere_confirmed hp hply hview observed
    exact .inl ⟨a, id, p, hfind, ⟨hp, rfl, hply, h.soundBelow hp, .refl⟩, hmeets⟩
  · rw [developHere, Action.bind_of_ok hnode, Action.bind_of_ok (belief_run hp), if_neg hview,
      Place.toNode_role, Action.bind_of_ok (Action.lift_of_ok hagreeing a)]
    cases hempty : (seeing u p.role view p.belief.worlds).isEmpty with
    | true =>
      have hnone : u.steady → p.IsBound → ∀ s, ¬p.wanted u ply view s := by
        intro _ _ s hs
        rw [StateSet.isEmpty_eq_false_iff.2 ⟨s, (hwanted s).1 hs⟩] at hempty
        cases hempty
      cases hcomplete : p.belief.isComplete with
      | true => exact .inr ⟨a, _, rfl, .unexplained rfl hnone (by simp [hcomplete])⟩
      | false => exact resample_cases h hstart (by omega) hobserved hcomplete hnone
    | false =>
      have hanswers : Answers u p ply view (seeing u p.role view p.belief.worlds) :=
        ⟨hempty, fun s hs => (hwanted s).2 hs, fun _ _ s hs => (hwanted s).1 hs⟩
      obtain ⟨a', q, hrun, hreached, hmeets⟩ := hanswers.observeAt h (by simpa using hply) hp
        (.here (.refl p)) (fun hj => absurd hj (Nat.lt_irrefl 0)) (fun s hs => (mem_seeing.1 hs).1)
        observed
      exact .inl ⟨a', id, q, Action.bind_of_ok hrun, hreached, hmeets⟩

/-! ## All ways together -/

lemma observedUpTo_toNode (v : Option (Valuation R)) :
    observedUpTo (p.toNode v) p.belief ply view = p.observedUpTo ply view := by
  unfold observedUpTo Place.observedUpTo
  simp only [Place.toNode_move, Place.toNode_depth, Place.toNode_role]
  cases p.move <;> rfl

/-- What was observed is recorded at a node that was found. -/
lemma Reached.record {observed : Evidence} (h : Reached u role ply k q a a')
    (hobserved : observed.Recorded ply)
    (hrecalls : u.recalls → q.edges = none ∨ q.belief.history = observed) :
    ∃ a'', changeBelief k (fun b => { b with history := observed }) a' = .ok ⟨⟩ a'' ∧
      Reached u role ply k (q.recording observed) a a'' := by
  obtain ⟨but, hsound, hisolated, hroles⟩ := h.sound
  obtain ⟨a'', hrun, hsane, hplaces⟩ := changeBelief_yields
    (fun b => { b with history := observed }) hsound.sane h.place
  have hself : a''.place? k = some (q.recording observed) := by
    rw [hplaces, Function.update_self]
    rfl
  have hknown : (q.recording observed).Known u :=
    ⟨(hsound.known k q h.place).worlds, by rw [← h.level] at hobserved; exact hobserved⟩
  have hfits := h.sound.sound h.place
  have hsound' : (q.recording observed).Sound u a''.place? k := by
    refine ⟨hfits.keyed, hfits.expanded, hfits.pristine, hfits.out, hfits.bucket, hfits.used,
      hfits.same, fun e he => ?_⟩
    obtain ⟨c, hc, hof⟩ := hfits.child e he
    refine ⟨c, by rw [hplaces, Function.update_of_ne (hsound.child_ne h.place he), hc], ?_⟩
    refine ⟨hof.parent, hof.depth, hof.role, hof.move, hof.isComplete, hof.standing, hof.worlds,
      fun hr => ?_⟩
    rcases hrecalls hr with hnone | hsame
    · have hnil := Place.edgeList_of_none hnone
      rw [show (q.recording observed).edgeList = q.edgeList from rfl, hnil] at he
      cases he
    · rw [hof.history hr, hsame]
      rfl
  have hthins : Forest.Thins a'.place? a''.place? := by
    rw [hplaces]
    exact .update h.place rfl rfl fun _ he => he
  refine ⟨a'', hrun, hself, h.owner, h.level, ?_, h.spares.trans ?_⟩
  · exact .narrowed (Sound.settle (hsound.touch h.place hsane hplaces rfl rfl hknown (fun _ he => he)
      (.inr hisolated.leads)) hself hsound') hisolated hroles rfl rfl hthins
  · rw [hplaces, ← h.owner]
    exact .update (Forest.role_of_place h.place)

lemma Sought.of_alike {observed : Evidence} {p₁ : Place}
    {result : EStateM.Result Fault (Arena R) NodeId} (h : Sought u p₁ ply view observed a' result)
    (halike : p.Alike p₁) (hply : (p.depth : Int) < ply)
    (hspares : Forest.Spares p.role a.place? a'.place?) :
    Sought u p ply view observed a result := by
  rcases h with ⟨a₁, k, q, hrun, hreached, hmeets⟩ | ⟨a₁, f, hrun, hunmet⟩
  · rw [halike.role] at hreached
    exact .inl ⟨a₁, k, q, hrun, hreached.after hspares, halike.meets (Int.ne_of_lt hply) hmeets⟩
  · exact .inr ⟨a₁, f, hrun, halike.unmet hunmet⟩

/-- What looking for a node of a later ply comes to. -/
theorem developLater_cases {observed : Evidence} (h : a.AllSound u) (hp : a.place? id = some p)
    (hstart : u.states u.game.start) (hply : (p.depth : Int) < ply) (hle : ply ≤ 2147483647)
    (hobserved : observed.Recorded ply) :
    Sought u p ply view observed a ((do
      trimBelief id
      match ← developThroughTree u.game id ply view with
      | some found => pure found
      | none => developThroughDevelopments u.game id ply view observed :
        Action (Arena R) NodeId) a) := by
  have hsound := h.kept id p hp (by simp)
  have hnone : ∀ x r, (fun _ : NodeId => False) x → a.place? x = some r → r.depth < p.depth :=
    fun _ _ hfalse => hfalse.elim
  obtain ⟨a₁, p₁, htrim, hsound₁, hp₁, ⟨halike₁, -, -, -, -⟩, hshrinks⟩ := trimBelief_yields
    (h.mono fun _ hfalse => .inl hfalse) hp (.refl hsound.expanded) hsound hnone
  have hspares₁ := hshrinks.spares (Forest.role_of_place hp)
  have hply₁ : (p₁.depth : Int) < ply := by rw [halike₁.depth]; exact hply
  rw [Action.bind_of_ok htrim]
  refine Sought.of_alike ?_ halike₁ hply hspares₁
  rcases developThroughTree_cases view hsound₁ hp₁ hply₁ observed with
    ⟨a₂, p₂, htree, hsound₂, hp₂, halike₂, hspares₂⟩ | ⟨a₂, k, q, htree, hreached, hmeets⟩ |
      ⟨a₂, f, htree, hunmet⟩
  · rw [Action.bind_of_ok htree]
    refine Sought.of_alike ?_ halike₂ hply₁ hspares₂
    exact developThroughDevelopments_cases hsound₂ hp₂ hstart (by rw [halike₂.depth]; exact hply₁) hle
      hobserved
  · rw [Action.bind_of_ok htree]
    exact .inl ⟨a₂, k, q, rfl, hreached, hmeets⟩
  · rw [Action.bind_of_error htree]
    exact .inr ⟨a₂, f, rfl, hunmet⟩

/-- What following a play from a belief comes to: a node of the ply at which the owner has the view,
with all that was observed as its history, or a reason why there is none. -/
theorem developBelief_cases (view : View) (h : a.AllSound u) (hp : a.place? id = some p)
    (hstart : u.states u.game.start) (hply : (p.depth : Int) ≤ ply) (hle : ply ≤ 2147483647)
    (hrecalls : u.recalls → ∀ q, p.Meets u ply view (p.observedUpTo ply view) q →
      ((p.depth : Int) = ply → p.belief.view? = some view → q = p) →
      q.edges = none ∨ q.belief.history = p.observedUpTo ply view) :
    (∃ a' k q, developBelief u.game id ply view a = .ok k a' ∧
        Reached u p.role ply k (q.recording (p.observedUpTo ply view)) a a' ∧
        p.Meets u ply view (p.observedUpTo ply view) q) ∨
      ∃ a' f, developBelief u.game id ply view a = .error f a' ∧
        p.Unmet u ply view (p.observedUpTo ply view) f := by
  obtain ⟨v, hnode⟩ := node_run hp
  have hobserved := (h.known id p hp).observedUpTo hply view
  let observed := p.observedUpTo ply view
  let find : Action (Arena R) NodeId :=
    if ply = p.depth then developHere u.game id ply view observed
    else do
      trimBelief id
      match ← developThroughTree u.game id ply view with
      | some found => pure found
      | none => developThroughDevelopments u.game id ply view observed
  have hsought : (∃ a₁ k q, find a = .ok k a₁ ∧ Reached u p.role ply k q a a₁ ∧
      p.Meets u ply view observed q ∧
      ((p.depth : Int) = ply → p.belief.view? = some view → q = p)) ∨
        ∃ a₁ f, find a = .error f a₁ ∧ p.Unmet u ply view observed f := by
    by_cases hhere : ply = p.depth
    · simp only [find, if_pos hhere]
      by_cases hview : p.belief.view? = some view
      · obtain ⟨hfind, hmeets⟩ := developHere_confirmed hp hhere.symm hview observed
        exact .inl ⟨a, id, p, hfind, ⟨hp, rfl, hhere.symm, h.soundBelow hp, .refl⟩, hmeets,
          fun _ _ => rfl⟩
      · refine (developHere_cases h hp hstart hhere.symm hobserved).imp_left ?_
        rintro ⟨a₁, k, q, hfind, hreached, hmeets⟩
        exact ⟨a₁, k, q, hfind, hreached, hmeets, fun _ hsame => absurd hsame hview⟩
    · simp only [find, if_neg hhere]
      refine (developLater_cases h hp hstart (by omega) hle hobserved).imp_left ?_
      rintro ⟨a₁, k, q, hfind, hreached, hmeets⟩
      exact ⟨a₁, k, q, hfind, hreached, hmeets, fun hsame => absurd hsame.symm hhere⟩
  have hrun : developBelief u.game id ply view a = (do
      let found ← find
      changeBelief found fun b => { b with history := observed }
      return found : Action (Arena R) NodeId) a := by
    rw [developBelief, Action.bind_of_ok hnode, Action.bind_of_ok (belief_run hp),
      Place.toNode_depth, if_neg (by omega), observedUpTo_toNode]
    by_cases hhere : ply = p.depth
    · simp only [find, if_pos hhere]
      rfl
    · simp only [find, if_neg hhere, bind_assoc]
      refine congrFun (congrArg (trimBelief id >>= ·) (funext fun _ => ?_)) a
      refine congrArg (developThroughTree u.game id ply view >>= ·) (funext fun r => ?_)
      cases r <;> rfl
  rw [hrun]
  rcases hsought with ⟨a₁, k, q, hfind, hreached, hmeets, hsame⟩ | ⟨a₁, f, hfind, hunmet⟩
  · obtain ⟨a₂, hrecord, hreached₂⟩ := hreached.record hobserved fun hr => hrecalls hr q hmeets hsame
    refine .inl ⟨a₂, k, q, ?_, hreached₂, hmeets⟩
    rw [Action.bind_of_ok hfind, Action.bind_of_ok hrecord]
    rfl
  · exact .inr ⟨a₁, f, Action.bind_of_error hfind, hunmet⟩

/-- A play is not followed back. -/
theorem developBelief_back (hp : a.place? id = some p) (hply : ply < p.depth) (view : View) :
    developBelief u.game id ply view a = .error (.developedBack p.depth ply) a := by
  obtain ⟨v, hnode⟩ := node_run hp
  rw [developBelief, Action.bind_of_ok hnode, Action.bind_of_ok (belief_run hp), Place.toNode_depth,
    if_pos hply]
  rfl

end Arena

end GameSearch
