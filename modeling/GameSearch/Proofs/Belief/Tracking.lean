import GameSearch.Proofs.Belief.Tending
import GameSearch.Proofs.Control
import GameSearch.Proofs.Recollection

/-!
# Keeping track of a play

`Place.Tracks` says what a root is to a role that follows a play: what is ahead of its worlds are the
states that the role deems possible, as far as the worlds are all, and its history is what the role
recollects.  Following the play from such a root, the role finds what it deems possible.
-/

namespace GameSearch

namespace Game

variable (game : Game) (role : Role)

/-- A role can tell by its view whether it is in control, and by the ply as long as the play goes
on. -/
structure Regular : Prop where
  seen : ∀ n s t, game.After n game.start s → game.After n game.start t →
    game.viewOf s role = game.viewOf t role → s.isInControl role = t.isInControl role
  timed : ∀ n s t, game.After n game.start s → game.After n game.start t →
    game.isTerminal s = .ok false → game.isTerminal t = .ok false →
    s.isInControl role = t.isInControl role

/-- A role is not to move at a ply. -/
def Idle (n : Nat) : Prop :=
  ∀ t, game.After n game.start t → game.isTerminal t = .ok false → t.isInControl role = false

variable {game role} {s : State} {n : Nat}

lemma Regular.idle (h : game.Regular role) (hs : game.After n game.start s)
    (hterminal : game.isTerminal s = .ok false) (hcontrol : s.isInControl role = false) :
    game.Idle role n :=
  fun t ht hterminal' => (h.timed n t s ht hs hterminal' hterminal).trans hcontrol

end Game

namespace Evidence

variable {e : Evidence} {ply : Int} {role : Role} {view view' : View}

/-- The evidence that a role stood in some way at a ply. -/
def withStanding (e : Evidence) (ply : Int) (role : Role) : Standing → Evidence
  | .visible (some view) => e.withView ply role view
  | _ => e

lemma withView_withView : (e.withView ply role view).withView ply role view' =
    e.withView ply role view' := by
  unfold withView
  congr 1
  refine Std.ExtTreeMap.ext_getElem? fun x => ?_
  simp only [Std.ExtTreeMap.getElem?_insert, Std.ExtTreeMap.getD_insert_self]
  split
  · congr 1
    refine Std.ExtTreeMap.ext_getElem? fun y => ?_
    simp only [Std.ExtTreeMap.getElem?_insert]
    split <;> rfl
  · rfl

lemma withStanding_withView (standing : Standing) :
    (e.withStanding ply role standing).withView ply role view = e.withView ply role view := by
  unfold withStanding
  split
  · exact withView_withView
  · rfl

lemma childHistory_eq {depth : Nat} {o : Observation} :
    Arena.childHistory e depth role o =
      (match o.move with
        | some move => e.withTurn depth (.single role move)
        | none => e).withStanding (depth + 1) role (Node.standingOf o.inControl o.view) := by
  unfold Arena.childHistory Node.standingOf
  cases o.inControl <;> rfl

end Evidence

namespace Place

variable {u : Upkeep} {role : Role} {known : Recollection} {p q c : Place} {s t : State} {view : View}
  {i j n : Nat}

/-- The plays that begin in the initial state and agree with some views and turns up to a ply. -/
lemma recalled_iff_plays {observed : Evidence} (hobserved : observed.Recorded n)
    (hn : (n : Int) ∈ observed.plies) :
    Recalled u observed t ↔ u.game.Plays (u.game.fromStart observed) n 0 u.game.start t := by
  have hhorizon : (u.game.fromStart observed).horizon = n := by
    refine Evidence.horizon_eq (Evidence.mem_plies_withStates.2 (.inr hn)) (by omega) fun x hx => ?_
    rcases Evidence.mem_plies_withStates.1 hx with rfl | hx
    · exact Int.natCast_nonneg n
    · exact (hobserved.plies x hx).2
  have hplies : ((n : Int) - 0).toNat = n := by omega
  rw [Recalled, Arena.Ends, hhorizon, Arena.offset_fromStart hobserved, hplies]
  simp only [Std.ExtTreeSet.mem_toList, StateSet.mem_singleton, exists_eq_left]

/-- The states that all observations lead to are states in which the play can be. -/
lemma after_of_recalled (hknown : p.Known u) (hdepth : p.depth ≤ n) (howner : p.role = role)
    (h : Recalled u (p.observedUpTo n view) t) :
    u.game.After n u.game.start t ∧ u.game.viewOf t role = view := by
  have hrecorded : (p.observedUpTo n view).Recorded n := hknown.observedUpTo (Int.ofNat_le.2 hdepth) view
  have hplays := (recalled_iff_plays hrecorded (Evidence.mem_plies_withView.2 (.inl rfl))).1 h
  obtain ⟨-, hviews⟩ := Game.agrees_iff.1 hplays.agrees_last
  refine ⟨hplays.after, ?_⟩
  rw [Int.zero_add] at hviews
  refine hviews _ Std.ExtTreeMap.getElem?_insert_self role view ?_
  rw [← howner]
  exact Std.ExtTreeMap.getElem?_insert_self

/-- What all observations of a role lead to is what the role deems possible. -/
theorem recalled_iff : Recalled u ((known.evidence role).withView known.length role view) t ↔
    u.game.Possible role known t ∧ u.game.viewOf t role = view := by
  have hrecorded := @Recollection.recorded_evidence role known
  have hobserved : ((known.evidence role).withView known.length role view).Recorded known.length :=
    (hrecorded.mono (by omega)).withView ⟨by omega, Int.le_refl _⟩ role view
  have hreflects : Recollection.Reflects u.game role
      (u.game.fromStart ((known.evidence role).withView known.length role view)) known := by
    refine Recollection.reflects_fromStart.congr fun x hx => ⟨rfl, ?_, rfl⟩
    have hne : (known.length : Int) ≠ x := by omega
    simp [Game.fromStart, Evidence.withStates, Evidence.withView, Std.ExtTreeMap.getElem?_insert, hne]
  rw [recalled_iff_plays hobserved (Evidence.mem_plies_withView.2 (.inl rfl)),
    Recollection.plays_iff hreflects]
  exact and_congr_right fun ht =>
    Recollection.agrees_withView ht hrecorded.states Recollection.getElem?_evidence.1

/-! ## Roots that keep track -/

/-- The owner of a place has been committed to a move. -/
structure Asked (role : Role) (known : Recollection) (p : Place) : Prop where
  depth : p.depth < known.length
  isVisible : p.belief.isVisible = true
  history : ∃ move, p.move = some move ∧
    p.belief.history.withTurn p.depth (.single role move) = known.evidence role

/-- The owner of a place has not been committed to a move. -/
structure Fresh (u : Upkeep) (role : Role) (known : Recollection) (p : Place) : Prop where
  move : p.move = none
  shows : p.Shows u
  idle : p.depth < known.length → u.game.Idle role p.depth
  history : p.belief.history =
      (known.evidence role).withStanding p.depth role p.belief.standing ∨
    p.edges = none ∧ p.belief.isComplete = true ∧ p.belief.history = known.evidence role

/-- A place from which a role can follow a play of which it has recollections. -/
structure Tracks (u : Upkeep) (role : Role) (known : Recollection) (p : Place) : Prop where
  owner : p.role = role
  depth : p.depth ≤ known.length
  worlds : ∀ s ∈ p.belief.worlds, u.game.After p.depth u.game.start s
  possible : ∀ s, p.ahead u (known.length - p.depth) s → u.game.Possible role known s
  all : p.belief.isComplete = true → ∀ s, u.game.Possible role known s →
    p.ahead u (known.length - p.depth) s
  idle : ∀ n, p.depth < n → n < known.length → u.game.Idle role n
  stage : p.Asked role known ∨ p.Fresh u role known

/-- The owner of a place is to move at a ply before the present one, but is not committed to a
move. -/
def Misled (known : Recollection) (p : Place) : Prop :=
  p.depth < known.length ∧ p.belief.isVisible = true ∧ p.move = none

lemma Tracks.after_ahead (h : p.Tracks u role known) (hs : p.ahead u j s) :
    u.game.After (p.depth + j) u.game.start s :=
  Place.after_ahead h.worlds hs

/-- Nobody in the place of a role that is not in control makes a move for it. -/
lemma find?_eq_none_of_idle {step : Turn × State} (hstart : u.states u.game.start)
    (hs : u.game.After n u.game.start s) (hstep : step ∈ u.game.transitions s)
    (hidle : u.game.Idle role n) : s.isInControl role = false ∧ step.1.find? role = none := by
  have hcontrol := hidle s hs (Game.isTerminal_of_mem_transitions hstep)
  refine ⟨hcontrol, ?_⟩
  cases hfind : step.1.find? role with
  | none => rfl
  | some move =>
    have hin := Game.isInControl_of_find? u.answers (u.answers.after hstart hs) hstep hfind
    rw [hcontrol] at hin
    cases hin

lemma find?_of_accepts {turn : Turn} {move : Move} (hmove : p.move = some move)
    (hvisible : p.belief.isVisible = true) (haccepts : p.accepts turn = true) :
    turn.find? p.role = some move := by
  rw [accepts, hmove, hvisible] at haccepts
  exact of_decide_eq_true haccepts

lemma hidden_of_isVisible_eq_false (h : p.belief.isVisible = false) : p.belief.standing = .hidden := by
  unfold Belief.isVisible at h
  split at h
  · cases h
  · assumption

/-- The history of a child of a place, in terms of how the owner stands there. -/
lemma history_eq_withStanding {e : Evidence} {turn : Turn} {next : State}
    (hhistory : c.belief.history =
      Arena.childHistory q.belief.history q.depth q.role (u.game.observed q.role turn next))
    (hstanding : c.belief.standing =
      Node.standingOf (next.isInControl q.role) (u.game.viewOf next q.role))
    (hturn : (match turn.find? q.role with
      | some move => q.belief.history.withTurn q.depth (.single q.role move)
      | none => q.belief.history) = e) :
    c.belief.history = e.withStanding (q.depth + 1) q.role c.belief.standing := by
  rw [hhistory, Evidence.childHistory_eq, hstanding, ← hturn]
  rfl

/-- What a role knows of a turn out of a world of a root that keeps track. -/
lemma Tracks.withTurn (h : p.Tracks u role known) (hstart : u.states u.game.start)
    (hmisled : ¬p.Misled known) (hlt : p.depth < known.length) {w : State} {step : Turn × State}
    (hw : w ∈ p.belief.worlds) (hstep : step ∈ u.game.transitions w)
    (haccepts : p.accepts step.1 = true) :
    (match step.1.find? role with
      | some move => p.belief.history.withTurn p.depth (.single role move)
      | none => p.belief.history) = known.evidence role := by
  rcases h.stage with ⟨-, hvisible, move, hmove, hhistory⟩ | ⟨hmove, hshows, hidle, hhistory⟩
  · have hfind := find?_of_accepts hmove hvisible haccepts
    rw [h.owner] at hfind
    rw [hfind]
    exact hhistory
  · obtain ⟨-, hfind⟩ := find?_eq_none_of_idle hstart (h.worlds w hw) hstep (hidle hlt)
    have hhidden : p.belief.standing = .hidden := by
      refine hidden_of_isVisible_eq_false ?_
      cases hvisible : p.belief.isVisible with
      | false => rfl
      | true => exact absurd ⟨hlt, hvisible, hmove⟩ hmisled
    rw [hfind]
    rw [hhidden] at hhistory
    exact hhistory.elim id fun hplanted => hplanted.2.2

/-- What a place below says of its history, if the role has not been to move on the way. -/
lemma Tracks.below_history (h : p.Tracks u role known) (hstart : u.states u.game.start)
    (hrecalls : u.recalls) (hmisled : ¬p.Misled known) (hc : p.Below u (j + 1) c)
    (hj : p.depth + (j + 1) ≤ known.length) :
    c.belief.history =
      (known.evidence role).withStanding (p.depth + j + 1 : Nat) role c.belief.standing := by
  induction j generalizing c with
  | zero =>
    cases hc with
    | @step _ q _ w next turn hq hw _ hstep haccepts _ _ _ _ hstanding hhistory =>
      cases hq with
      | here hakin =>
        have hturn := h.withTurn hstart hmisled (by omega) hw hstep (haccepts rfl)
        rw [← h.owner, ← hakin.role, ← hakin.depth, ← hakin.history] at hturn
        rw [← h.owner, ← hakin.role, ← hakin.depth]
        exact history_eq_withStanding (hhistory hrecalls) hstanding hturn
  | succ j ih =>
    cases hc with
    | @step _ q _ w next turn hq hw hstands hstep _ _ _ _ _ hstanding hhistory =>
      have hrole : q.role = role := hq.role.trans h.owner
      have hdepth : q.depth = p.depth + j + 1 := hq.depth
      obtain ⟨hcontrol, hfind⟩ := find?_eq_none_of_idle hstart (h.after_ahead hw) hstep
        (h.idle _ (by omega) (by omega))
      have hhidden : q.belief.standing = .hidden := by
        rw [hstands (Nat.succ_pos j), hrole, hcontrol]
        rfl
      have hq' := ih hq (by omega)
      rw [hhidden] at hq'
      rw [show p.depth + (j + 1) + 1 = q.depth + 1 by omega]
      push_cast
      rw [← hrole]
      refine history_eq_withStanding (hhistory hrecalls) hstanding ?_
      rw [hrole, hfind]
      exact hq'

/-! ## At a ply of its own -/

/-- A role is to move in a state that a play may be in. -/
structure ToMove (u : Upkeep) (role : Role) (known : Recollection) (s : State) : Prop where
  possible : u.game.Possible role known s
  isInControl : s.isInControl role = true
  ongoing : u.game.isTerminal s = .ok false

/-- What is observed up to a ply of its own by a role that keeps track. -/
lemma Tracks.observedUpTo_eq (h : p.Tracks u role known) (hmisled : ¬p.Misled known) (view : View) :
    p.observedUpTo known.length view = (known.evidence role).withView known.length role view := by
  rw [observedUpTo, h.owner]
  rcases h.stage with ⟨hdepth, -, move, hmove, hhistory⟩ | ⟨hmove, -, -, hhistory⟩
  · rw [hmove]
    simp only
    rw [if_pos (by omega), hhistory]
  · rw [hmove]
    simp only
    rcases Nat.lt_or_eq_of_le h.depth with hlt | heq
    · have hhidden : p.belief.standing = .hidden := by
        refine hidden_of_isVisible_eq_false ?_
        cases hvisible : p.belief.isVisible with
        | false => rfl
        | true => exact absurd ⟨hlt, hvisible, hmove⟩ hmisled
      rw [hhidden] at hhistory
      rw [hhistory.elim id fun hplanted => hplanted.2.2]
      rfl
    · rw [← heq]
      rcases hhistory with hhistory | ⟨-, -, hhistory⟩
      · rw [hhistory, Evidence.withStanding_withView]
      · rw [hhistory]

/-- A state that shows a role what it sees when it is to move is one in which it is in control. -/
lemma ToMove.control (hs : ToMove u role known s) (hregular : u.game.Regular role)
    (ht : u.game.Possible role known t) (hview : u.game.viewOf t role = u.game.viewOf s role) :
    t.isInControl role = true := by
  rw [hregular.seen known.length t s (Recollection.after_of_possible ht)
    (Recollection.after_of_possible hs.possible) hview]
  exact hs.isInControl

/-- What a place is to a role that finds it when it is to move. -/
structure Holds (u : Upkeep) (role : Role) (known : Recollection) (view : View) (q : Place) : Prop where
  move : q.move = none
  standing : q.belief.standing = .visible (some view)
  possible : ∀ t ∈ q.belief.worlds, u.game.Possible role known t ∧ u.game.viewOf t role = view
  all : q.belief.isComplete = true → ∀ t, u.game.Possible role known t →
    u.game.viewOf t role = view → t ∈ q.belief.worlds

lemma Tracks.isBound (h : p.Tracks u role known) : p.IsBound := by
  rcases h.stage with ⟨-, hvisible, -⟩ | ⟨hmove, -⟩
  · exact .inr hvisible
  · exact .inl hmove

/-- The worlds of a place that was found are possible and show the view. -/
lemma Tracks.possible_of_meets (h : p.Tracks u role known) (hmisled : ¬p.Misled known)
    (hmeets : p.Meets u known.length view (p.observedUpTo known.length view) q)
    (ht : t ∈ q.belief.worlds) :
    u.game.Possible role known t ∧ u.game.viewOf t role = view := by
  rw [h.observedUpTo_eq hmisled] at hmeets
  rcases hmeets.found with hfound | hfound | ⟨hdepth, hview, rfl⟩
  · obtain ⟨hahead, hsees⟩ := hfound.wanted t ht
    rw [h.owner] at hsees
    refine ⟨h.possible t ?_, hsees⟩
    convert hahead using 1
    omega
  · exact recalled_iff.1 (hfound.recalled t ht)
  · have hdepth' : known.length - q.depth = 0 := by omega
    refine ⟨h.possible t (by rw [hdepth']; exact ht), ?_⟩
    rcases h.stage with ⟨hlt, -⟩ | ⟨-, hshows, -⟩
    · omega
    · have hstanding := hshows t ht
      rw [Belief.view?, hstanding, Node.standingOf] at hview
      rw [← h.owner]
      cases hcontrol : t.isInControl q.role with
      | false => simp [hcontrol] at hview
      | true => simpa [hcontrol] using hview

/-- All possible states that show the view are worlds of a complete place that was found. -/
lemma Tracks.mem_of_meets (h : p.Tracks u role known) (hsteady : u.steady) (hmisled : ¬p.Misled known)
    (hmeets : p.Meets u known.length view (p.observedUpTo known.length view) q)
    (hcomplete : q.belief.isComplete = true) (ht : u.game.Possible role known t)
    (hview : u.game.viewOf t role = view) : t ∈ q.belief.worlds := by
  rw [h.observedUpTo_eq hmisled] at hmeets
  rcases hmeets.found with hfound | hfound | ⟨hdepth, -, rfl⟩
  · have hahead := h.all (hfound.isComplete.symm.trans hcomplete) t ht
    refine hfound.all hsteady h.isBound t ⟨?_, by rw [h.owner]; exact hview⟩
    convert hahead using 1
    omega
  · exact hfound.all hcomplete t (recalled_iff.2 ⟨ht, hview⟩)
  · have hahead := h.all hcomplete t ht
    rw [show known.length - q.depth = 0 by omega] at hahead
    exact hahead

/-- A place below one that keeps track shows what its worlds show, and has no move yet. -/
lemma Tracks.shows_below (h : p.Tracks u role known) (hbelow : p.Below u j c)
    (hj : (p.depth : Int) + j = known.length) (hshows : 0 < j → c.Shows u)
    (ht : t ∈ c.belief.worlds) (hahead : p.ahead u j t) :
    c.belief.standing = Node.standingOf (t.isInControl role) (u.game.viewOf t role) ∧
      c.move = none := by
  cases hbelow with
  | here hakin =>
    rcases h.stage with ⟨hlt, -⟩ | ⟨hmove, hshows, -⟩
    · omega
    · refine ⟨?_, hakin.move.trans hmove⟩
      rw [hakin.standing, hshows t hahead, h.owner]
  | step hq _ _ _ _ _ hrole hmove _ _ _ =>
    have hstanding := hshows (Nat.succ_pos _) t ht
    rw [hrole, hq.role, h.owner] at hstanding
    exact ⟨hstanding, hmove⟩

/-- Following a play, a role finds what it deems possible. -/
theorem Tracks.holds (h : p.Tracks u role known) (hregular : u.game.Regular role) (hsteady : u.steady)
    (hmisled : ¬p.Misled known) (hs : ToMove u role known s) (hview : u.game.viewOf s role = view)
    (hmeets : p.Meets u known.length view (p.observedUpTo known.length view) q) :
    q.Holds u role known view := by
  obtain ⟨t, ht⟩ := StateSet.isEmpty_eq_false_iff.1 q.belief.nonempty
  have hpossible := fun t ht => @possible_of_meets _ _ _ _ _ t _ h hmisled hmeets ht
  have hcontrol : t.isInControl role = true :=
    hs.control hregular (hpossible t ht).1 ((hpossible t ht).2.trans hview.symm)
  have hstands : q.move = none ∧ q.belief.standing = .visible (some view) := by
    rcases hmeets.stems with ⟨hj, hbelow, hshows, hworlds, hakin⟩ | ⟨hall, hmove, -, hstanding⟩
    · obtain ⟨hstanding, hmove⟩ :=
        h.shows_below hbelow hj hshows (hworlds t ht).1 (hworlds t ht).2
      rw [hcontrol] at hstanding
      rcases Place.observe_cases _ view with ⟨w, -, heq⟩ | ⟨hhidden, -⟩
      · rw [heq] at hakin
        exact ⟨hakin.move.trans hmove, hakin.standing⟩
      · rw [hstanding] at hhidden
        cases hhidden
    · have hinControl := hall t ht
      rw [h.owner, hcontrol] at hinControl
      rw [← hinControl] at hstanding
      exact ⟨hmove, hstanding⟩
  exact ⟨hstands.1, hstands.2, hpossible, fun hcomplete t ht hsees =>
    h.mem_of_meets hsteady hmisled hmeets hcomplete ht hsees⟩

/-- The history of a place that was found in the tree is all that was observed. -/
theorem Tracks.recalls (h : p.Tracks u role known) (hregular : u.game.Regular role)
    (hstart : u.states u.game.start) (hmisled : ¬p.Misled known) (hs : ToMove u role known s)
    (hview : u.game.viewOf s role = view) (hr : u.recalls)
    (hmeets : p.Meets u known.length view (p.observedUpTo known.length view) q)
    (hsame : (p.depth : Int) = known.length → p.belief.view? = some view → q = p) :
    q.edges = none ∨ q.belief.history = p.observedUpTo known.length view := by
  obtain ⟨t, ht⟩ := StateSet.isEmpty_eq_false_iff.1 q.belief.nonempty
  obtain ⟨hpossible, hsees⟩ := h.possible_of_meets hmisled hmeets ht
  have hcontrol : t.isInControl role = true :=
    hs.control hregular hpossible (hsees.trans hview.symm)
  rw [h.observedUpTo_eq hmisled]
  rcases hmeets.stems with ⟨hj, hbelow, hshows, hworlds, hakin⟩ | ⟨-, -, hedges, -⟩
  · obtain ⟨hstanding, -⟩ := h.shows_below hbelow hj hshows (hworlds t ht).1 (hworlds t ht).2
    rw [hcontrol, hsees] at hstanding
    cases hbelow with
    | here hsame' =>
      have hdepth : (p.depth : Int) = known.length := by simpa using hj
      have hvisible : p.belief.standing = .visible (some view) := hsame'.standing.symm.trans hstanding
      obtain rfl := hsame hdepth (by rw [Belief.view?, hvisible])
      rcases h.stage with ⟨hlt, -⟩ | ⟨-, -, -, hhistory⟩
      · omega
      · rcases hhistory with hhistory | ⟨hedges, -⟩
        · right
          rw [hhistory, hvisible, hdepth]
          rfl
        · exact .inl hedges
    | @step j _ _ _ _ _ hq hw hstands hstep haccepts hdepth hrole hmove hcomplete hstanding' hhistory =>
      right
      have hbelow := Below.step hq hw hstands hstep haccepts hdepth hrole hmove hcomplete hstanding'
        hhistory
      rw [hakin.history, observe_history, h.below_history hstart hr hmisled hbelow (by omega),
        hstanding, show p.depth + j + 1 = known.length by omega]
      rfl
  · exact .inl hedges

/-- Following a play, a role always finds something. -/
theorem Tracks.not_unmet (h : p.Tracks u role known) (hregular : u.game.Regular role)
    (hsteady : u.steady) (hmisled : ¬p.Misled known) (hs : ToMove u role known s)
    (hview : u.game.viewOf s role = view) {f : Fault} :
    ¬p.Unmet u known.length view (p.observedUpTo known.length view) f := by
  have hwanted : ∀ t, p.wanted u known.length view t →
      u.game.Possible role known t ∧ u.game.viewOf t role = view := by
    rintro t ⟨hahead, hsees⟩
    rw [h.owner] at hsees
    rw [show ((known.length : Int) - p.depth).toNat = known.length - p.depth by omega] at hahead
    exact ⟨h.possible t hahead, hsees⟩
  rw [h.observedUpTo_eq hmisled]
  rintro (⟨-, hnone, hrecalled⟩ | ⟨hdiffers, hboth⟩)
  · cases hcomplete : p.belief.isComplete with
    | true =>
      have hahead := h.all hcomplete s hs.possible
      refine hnone hsteady h.isBound s ⟨?_, by rw [h.owner]; exact hview⟩
      convert hahead using 1
      omega
    | false => exact hrecalled hcomplete s (recalled_iff.2 ⟨hs.possible, hview⟩)
  · have hpossible : ∀ t, p.wanted u known.length view t ∨
        Recalled u ((known.evidence role).withView known.length role view) t →
        t.isInControl role = true := by
      intro t ht
      have ht := ht.elim (hwanted t) recalled_iff.1
      exact hs.control hregular ht.1 (ht.2.trans hview.symm)
    rw [h.owner] at hdiffers
    rcases hboth with ⟨hs', ht'⟩ | ⟨-, hs', ht'⟩
    · exact hdiffers ((hpossible _ (.inl hs')).trans (hpossible _ (.inl ht')).symm)
    · exact hdiffers ((hpossible _ (.inr hs')).trans (hpossible _ (.inr ht')).symm)

/-! ## Misled by a sample -/

lemma exists_step_of_ahead (h : p.ahead u (j + 1) t) :
    ∃ w ∈ p.belief.worlds, ∃ step, step ∈ u.game.transitions w := by
  induction j generalizing t with
  | zero =>
    obtain ⟨w, hw, step, hstep, -⟩ := h
    exact ⟨w, hw, step, hstep⟩
  | succ j ih =>
    obtain ⟨r, hr, -⟩ := h
    exact ih hr

/-- The play is over in all worlds of a root that is misled, and its owner is in control there. -/
theorem Tracks.over_of_misled (h : p.Tracks u role known) (hmisled : p.Misled known)
    (hs : s ∈ p.belief.worlds) : s.isInControl role = true ∧ u.game.isTerminal s ≠ .ok false := by
  obtain ⟨hlt, hvisible, hmove⟩ := hmisled
  rcases h.stage with ⟨-, -, move, hmove', -⟩ | ⟨-, hshows, hidle, -⟩
  · rw [hmove] at hmove'
    cases hmove'
  · have hcontrol : s.isInControl role = true := by
      cases hcontrol : s.isInControl role with
      | true => rfl
      | false =>
        rw [Belief.isVisible, hshows s hs, h.owner, hcontrol] at hvisible
        cases hvisible
    refine ⟨hcontrol, fun hongoing => ?_⟩
    rw [hidle hlt s (h.worlds s hs) hongoing] at hcontrol
    cases hcontrol

lemma Tracks.isTerminal_of_misled (h : p.Tracks u role known) (hstart : u.states u.game.start)
    (hmisled : p.Misled known) (hs : s ∈ p.belief.worlds) : u.game.isTerminal s = .ok true := by
  obtain ⟨answer, hanswer⟩ := u.answers.isTerminal s (u.answers.after hstart (h.worlds s hs))
  cases answer with
  | true => exact hanswer
  | false => exact absurd hanswer (h.over_of_misled hmisled hs).2

/-- No play goes on from the worlds of a root that is misled. -/
lemma Tracks.not_ahead (h : p.Tracks u role known) (hmisled : p.Misled known) :
    ¬p.ahead u (j + 1) t := by
  intro hahead
  obtain ⟨w, hw, step, hstep⟩ := exists_step_of_ahead hahead
  exact (h.over_of_misled hmisled hw).2 (Game.isTerminal_of_mem_transitions hstep)

/-- A root that is misled is a sample. -/
lemma Tracks.sample_of_misled (h : p.Tracks u role known) (hmisled : p.Misled known)
    (hs : u.game.Possible role known s) : p.belief.isComplete = false := by
  cases hcomplete : p.belief.isComplete with
  | false => rfl
  | true =>
    have hahead := h.all hcomplete s hs
    have hlt := hmisled.1
    rw [show known.length - p.depth = known.length - p.depth - 1 + 1 by omega] at hahead
    exact absurd hahead (h.not_ahead hmisled)

/-- No play agrees with the history of a root that is misled and goes on. -/
lemma Tracks.not_recalled (h : p.Tracks u role known) (hregular : u.game.Regular role)
    (hmisled : p.Misled known) (hs : u.game.Possible role known s) :
    ¬Recalled u (p.observedUpTo known.length view) t := by
  have hsample := h.sample_of_misled hmisled hs
  obtain ⟨x, hx⟩ := StateSet.isEmpty_eq_false_iff.1 p.belief.nonempty
  obtain ⟨hcontrol, -⟩ := h.over_of_misled hmisled hx
  obtain ⟨hlt, hvisible, hmove⟩ := hmisled
  rcases h.stage with ⟨-, -, move, hmove', -⟩ | ⟨-, hshows, hidle, hhistory⟩
  · rw [hmove] at hmove'
    cases hmove'
  · have hstanding := hshows x hx
    rw [h.owner] at hstanding
    have hobserved : p.observedUpTo known.length view = ((known.evidence role).withView p.depth role
        (u.game.viewOf x role)).withView known.length role view := by
      rw [observedUpTo, hmove, h.owner]
      rcases hhistory with hhistory | ⟨-, hcomplete, -⟩
      · rw [hhistory, hstanding, hcontrol]
        rfl
      · rw [hsample] at hcomplete
        cases hcomplete
    rw [hobserved]
    have hrecorded : (known.evidence role).Recorded known.length :=
      Recollection.recorded_evidence.mono (by omega)
    rw [recalled_iff_plays ((hrecorded.withView (by omega) role _).withView (by omega) role view)
      (Evidence.mem_plies_withView.2 (.inl rfl))]
    intro hplays
    obtain ⟨j, hj⟩ : ∃ j, known.length = p.depth + (j + 1) := ⟨known.length - p.depth - 1, by omega⟩
    rw [hj] at hplays
    obtain ⟨r, hr, -, step, hstep, -⟩ := hplays.split
    have hsees : u.game.viewOf r role = u.game.viewOf x role := by
      obtain ⟨-, hviews⟩ := Game.agrees_iff.1 hr.agrees_last
      have hne : (p.depth + (j + 1) : Nat) ≠ (p.depth : Int) := by omega
      refine hviews (((known.evidence role).views.getD p.depth ∅).insert role (u.game.viewOf x role))
        ?_ role _ Std.ExtTreeMap.getElem?_insert_self
      simp only [Game.fromStart, Evidence.withStates, Evidence.withView, Std.ExtTreeMap.getElem?_insert,
        Std.compare_eq_iff_eq, Int.zero_add, hne, if_false, if_true]
    have hidle' := hidle hlt r hr.after (Game.isTerminal_of_mem_transitions hstep)
    rw [hregular.seen p.depth r x hr.after (h.worlds x hx) hsees, hcontrol] at hidle'
    cases hidle'

/-- Nothing is found from a root that is misled. -/
theorem Tracks.not_meets (h : p.Tracks u role known) (hregular : u.game.Regular role)
    (hmisled : p.Misled known) (hs : u.game.Possible role known s) :
    ¬p.Meets u known.length view (p.observedUpTo known.length view) q := by
  intro hmeets
  obtain ⟨t, ht⟩ := StateSet.isEmpty_eq_false_iff.1 q.belief.nonempty
  have hlt := hmisled.1
  rcases hmeets.found with hfound | hfound | hfound
  · have hahead := (hfound.wanted t ht).1
    rw [show ((known.length : Int) - p.depth).toNat = known.length - p.depth - 1 + 1 by omega] at hahead
    exact h.not_ahead hmisled hahead
  · exact h.not_recalled hregular hmisled hs (hfound.recalled t ht)
  · have := hfound.depth
    omega

/-- Whatever is found has all that was observed in its history, or was never expanded. -/
theorem Tracks.recalls_of_meets (h : p.Tracks u role known) (hregular : u.game.Regular role)
    (hstart : u.states u.game.start) (hs : ToMove u role known s) (hview : u.game.viewOf s role = view)
    (hr : u.recalls) (hmeets : p.Meets u known.length view (p.observedUpTo known.length view) q)
    (hsame : (p.depth : Int) = known.length → p.belief.view? = some view → q = p) :
    q.edges = none ∨ q.belief.history = p.observedUpTo known.length view := by
  by_cases hmisled : p.Misled known
  · exact absurd hmeets (h.not_meets hregular hmisled hs.possible)
  · exact h.recalls hregular hstart hmisled hs hview hr hmeets hsame

/-- The fault is that no world explains the view. -/
theorem Tracks.mismatch_of_misled (h : p.Tracks u role known) (hregular : u.game.Regular role)
    (hmisled : p.Misled known) (hs : u.game.Possible role known s) {f : Fault}
    (hunmet : p.Unmet u known.length view (p.observedUpTo known.length view) f) :
    f.kind = .mismatch := by
  have hlt := hmisled.1
  rcases hunmet with ⟨hkind, -, -⟩ | ⟨-, ⟨⟨hahead, -⟩, -⟩ | ⟨-, hrecalled, -⟩⟩
  · exact hkind
  · rw [show ((known.length : Int) - p.depth).toNat = known.length - p.depth - 1 + 1 by omega]
      at hahead
    exact absurd hahead (h.not_ahead hmisled)
  · exact absurd hrecalled (h.not_recalled hregular hmisled hs)

/-! ## From ply to ply -/

lemma ahead_congr (hworlds : q.belief.worlds = p.belief.worlds)
    (haccepts : ∀ turn, q.accepts turn = p.accepts turn) : q.ahead u j s ↔ p.ahead u j s := by
  induction j generalizing s with
  | zero => simp only [ahead, hworlds]
  | succ j ih => simp only [ahead, ih, haccepts]

/-- A root keeps track when it is made a root once more. -/
lemma Tracks.detached (h : p.Tracks u role known) : p.detached.Tracks u role known := by
  have hahead : ∀ {j s}, p.detached.ahead u j s ↔ p.ahead u j s := ahead_congr rfl fun _ => rfl
  refine ⟨h.owner, h.depth, h.worlds, fun s hs => h.possible s (hahead.1 hs),
    fun hcomplete s hs => hahead.2 (h.all hcomplete s hs), h.idle, h.stage.imp ?_ ?_⟩
  · exact fun hasked => ⟨hasked.depth, hasked.isVisible, hasked.history⟩
  · exact fun hfresh => ⟨hfresh.move, hfresh.shows, hfresh.idle, hfresh.history⟩

/-- A root keeps track of a ply at which its owner is not to move. -/
theorem Tracks.watch (h : p.Tracks u role known) (hidle : u.game.Idle role known.length) :
    p.Tracks u role (none :: known) := by
  have hdepth := h.depth
  have hlength : (none :: known).length - p.depth = known.length - p.depth + 1 := by
    rw [List.length_cons]
    omega
  refine ⟨h.owner, Nat.le_succ_of_le h.depth, h.worlds, fun t ht => ?_, fun hcomplete t ht => ?_,
    fun n hn hlt => ?_, ?_⟩
  · rw [hlength] at ht
    obtain ⟨s, hs, step, hstep, heq, -⟩ := ht
    exact ⟨s, h.possible s hs, step, hstep, heq⟩
  · rw [hlength]
    obtain ⟨s, hs, step, hstep, heq⟩ := ht
    refine ⟨s, h.all hcomplete s hs, step, hstep, heq, fun hzero => ?_⟩
    rcases h.stage with ⟨hlt, -⟩ | ⟨hmove, -⟩
    · omega
    · rw [accepts, hmove]
  · rcases Nat.lt_succ_iff_lt_or_eq.1 hlt with hlt | rfl
    · exact h.idle n hn hlt
    · exact hidle
  · refine h.stage.imp (fun hasked => ?_) fun hfresh => ?_
    · exact ⟨Nat.lt_succ_of_lt hasked.depth, hasked.isVisible, hasked.history⟩
    · refine ⟨hfresh.move, hfresh.shows, fun hlt => ?_, hfresh.history⟩
      rcases Nat.lt_succ_iff_lt_or_eq.1 hlt with hlt | heq
      · exact hfresh.idle hlt
      · exact heq ▸ hidle

/-- A place that its owner has found when it was to move. -/
structure Ready (u : Upkeep) (role : Role) (known : Recollection) (view : View) (p : Place) : Prop where
  holds : p.Holds u role known view
  owner : p.role = role
  depth : p.depth = known.length
  history : p.belief.history = (known.evidence role).withView known.length role view

/-- What was found is ready, even if only a sample of it was kept. -/
lemma Holds.ready (h : q.Holds u role known view) (howner : c.role = role) (hdepth : c.depth = known.length)
    (hlimited : (q.recording ((known.evidence role).withView known.length role view)).Limited c) :
    c.detached.Ready u role known view := by
  refine ⟨⟨?_, ?_, fun t ht => h.possible t (hlimited.worlds t ht), fun hcomplete t ht hsees => ?_⟩,
    howner, hdepth, hlimited.history⟩
  · exact hlimited.move.trans h.move
  · exact hlimited.standing.trans h.standing
  · obtain rfl := hlimited.eq_of_isComplete hcomplete
    exact h.all hcomplete t ht hsees

lemma Ready.congr (h : p.Ready u role known view) (halike : p.Alike q) : q.Ready u role known view := by
  refine ⟨⟨halike.move.trans h.holds.move, halike.standing.trans h.holds.standing, ?_, ?_⟩,
    halike.role.trans h.owner, halike.depth.trans h.depth, halike.history.trans h.history⟩
  · rw [halike.worlds]
    exact h.holds.possible
  · rw [halike.worlds, halike.isComplete]
    exact h.holds.all

/-- A place whose owner has found it when it was to move, and then was committed to a move. -/
structure Committed (u : Upkeep) (role : Role) (known : Recollection) (view : View) (move : Move)
    (q p : Place) : Prop where
  holds : q.Holds u role known view
  owner : p.role = role
  depth : p.depth = known.length
  move : p.move = some move
  worlds : p.belief.worlds = q.belief.worlds
  isComplete : p.belief.isComplete = q.belief.isComplete
  standing : p.belief.standing = q.belief.standing
  history : p.belief.history = (known.evidence role).withView known.length role view

variable {move : Move}

/-- A place that is ready, once its owner is committed. -/
lemma Ready.committed (h : p.Ready u role known view) (htrimmed : (p.committed move).Trimmed q) :
    Committed u role known view move p q :=
  ⟨h.holds, htrimmed.alike.role.trans h.owner, htrimmed.alike.depth.trans h.depth, htrimmed.alike.move,
    htrimmed.alike.worlds, htrimmed.alike.isComplete, htrimmed.alike.standing,
    htrimmed.alike.history.trans h.history⟩

lemma Committed.isVisible (h : Committed u role known view move q p) : p.belief.isVisible = true := by
  rw [Belief.isVisible, h.standing, h.holds.standing]

lemma Committed.accepts_iff (h : Committed u role known view move q p) {turn : Turn} :
    p.accepts turn = true ↔ turn.find? role = some move := by
  rw [accepts, h.move, h.isVisible, h.owner]
  exact decide_eq_true_iff

/-- A state follows a world of such a place by the move just if it is possible after the move. -/
lemma Committed.possible_iff (h : Committed u role known view move q p)
    (hcomplete : p.belief.isComplete = true) :
    u.game.Possible role (some (view, move) :: known) t ↔
      ∃ w ∈ p.belief.worlds, ∃ step ∈ u.game.transitions w, step.2 = t ∧ p.accepts step.1 = true := by
  simp only [Game.Possible, h.accepts_iff, h.worlds]
  constructor
  · rintro ⟨s, hs, hview, hstep⟩
    exact ⟨s, h.holds.all (h.isComplete.symm.trans hcomplete) s hs hview, hstep⟩
  · rintro ⟨s, hs, hstep⟩
    exact ⟨s, (h.holds.possible s hs).1, (h.holds.possible s hs).2, hstep⟩

lemma Committed.possible (h : Committed u role known view move q p) {w : State} {step : Turn × State}
    (hw : w ∈ p.belief.worlds) (hstep : step ∈ u.game.transitions w)
    (haccepts : p.accepts step.1 = true) :
    u.game.Possible role (some (view, move) :: known) step.2 := by
  rw [h.worlds] at hw
  exact ⟨w, (h.holds.possible w hw).1, (h.holds.possible w hw).2, step, hstep, rfl,
    h.accepts_iff.1 haccepts⟩

/-- A committed root keeps track of the play after the move. -/
theorem Committed.tracks (h : Committed u role known view move q p) :
    p.Tracks u role (some (view, move) :: known) := by
  have hdepth := h.depth
  have hlength : (some (view, move) :: known).length - p.depth = 1 := by
    rw [List.length_cons]
    omega
  refine ⟨h.owner, by rw [List.length_cons]; omega, fun s hs => ?_, fun t ht => ?_,
    fun hcomplete t ht => ?_, fun n hn hlt => ?_, .inl ⟨?_, h.isVisible, move, h.move, ?_⟩⟩
  · rw [h.worlds] at hs
    rw [h.depth]
    exact Recollection.after_of_possible (h.holds.possible s hs).1
  · rw [hlength] at ht
    obtain ⟨w, hw, step, hstep, rfl, haccepts⟩ := ht
    exact h.possible hw hstep (haccepts rfl)
  · rw [hlength]
    obtain ⟨w, hw, step, hstep, heq, haccepts⟩ := (h.possible_iff hcomplete).1 ht
    exact ⟨w, hw, step, hstep, heq, fun _ => haccepts⟩
  · rw [List.length_cons] at hlt
    omega
  · rw [List.length_cons]
    omega
  · rw [h.history, h.depth]
    rfl

/-- So does the only child of a committed root all of whose worlds are expanded. -/
theorem Committed.tracks_child (h : Committed u role known view move q p) {T : Forest}
    {id k : NodeId} (hsteady : u.steady) (hrecalls : u.recalls) (hsound : p.Sound u T id)
    (hexpanded : ∀ w ∈ p.belief.worlds, w ∈ p.belief.expanded)
    (hsole : ∀ e ∈ p.edgeList, e.child = k) (hne : p.edgeList ≠ []) (hc : T k = some c) :
    c.Tracks u role (some (view, move) :: known) := by
  obtain ⟨e, he⟩ := List.exists_mem_of_ne_nil _ hne
  obtain ⟨c', hc', hof⟩ := hsound.child e he
  rw [hsole e he, hc, Option.some.injEq] at hc'
  subst hc'
  have hdepth : c.depth = (some (view, move) :: known).length := by
    rw [hof.depth, h.depth, List.length_cons]
  have hpossible : ∀ s ∈ c.belief.worlds,
      u.game.Possible role (some (view, move) :: known) s := by
    intro s hs
    obtain ⟨x, hx, -, rfl⟩ := (hof.worlds s).1 hs
    obtain ⟨w, hw, -, hstep, haccepts⟩ := hsound.edge hx
    exact h.possible (hsound.expanded w hw) hstep haccepts
  have hahead : (some (view, move) :: known).length - c.depth = 0 := by omega
  refine ⟨hof.role.trans h.owner, Nat.le_of_eq hdepth, fun s hs => ?_, fun t ht => ?_,
    fun hcomplete t ht => ?_, fun n hn hlt => absurd hlt (by omega),
    .inr ⟨hof.move, hsound.shows he hof, fun hlt => absurd hlt (by omega), .inl ?_⟩⟩
  · rw [hdepth]
    exact Recollection.after_of_possible (hpossible s hs)
  · rw [hahead] at ht
    exact hpossible t ht
  · rw [hahead]
    obtain ⟨w, hw, step, hstep, heq, haccepts⟩ :=
      (h.possible_iff (hof.isComplete.symm.trans hcomplete)).1 ht
    have hout : (step.1, step.2) ∈ p.out w := by
      rw [(hsound.out w).resolve_right fun hout => hout.1.1 hsteady, List.mem_filter, mem_done]
      exact ⟨⟨hexpanded w hw, hstep⟩, haccepts⟩
    obtain ⟨x, hx, -, -, hnext⟩ := mem_out.1 hout
    exact (hof.worlds t).2 ⟨x, hx, (hsole x hx).trans (hsole e he).symm, hnext.trans heq⟩
  · -- the history of the child goes on from that of the place by the move and the view
    obtain ⟨w, hw, -, -, haccepts⟩ := hsound.edge he
    have hturn : (match e.turn.find? p.role with
        | some move => p.belief.history.withTurn p.depth (.single p.role move)
        | none => p.belief.history) =
        Recollection.evidence p.role (some (view, move) :: known) := by
      rw [h.owner, h.accepts_iff.1 haccepts, h.history, h.depth]
      rfl
    rw [history_eq_withStanding (hof.history hrecalls) hof.standing hturn, h.owner, hof.depth]
    rfl

end Place

end GameSearch
