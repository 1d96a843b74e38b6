import GameSearch.Proofs.Agent.Attendance
import GameSearch.Proofs.Agent.Lockstep
import GameSearch.Proofs.Enumeration

/-!
# Locating worlds

The node of another role for a world of the agent's own root is found by a development between the plies
of the two roots.  Its turns are transitions, so that following it in the tree of that role does not
fail, and the node that is found describes the world.
-/

namespace GameSearch

namespace Evidence

/-- Evidence of the states at the first and the last ply, and of what a role saw and did in between. -/
structure Spans (e : Evidence) (memory : MultiObserver) (own : Role) (first last : Int) (worlds : StateSet)
    (w : State) : Prop where
  states : e.states = ((∅ : Std.ExtTreeMap Int StateSet).insert first worlds).insert last {w}
  plies : ∀ x ∈ e.plies, first ≤ x ∧ x ≤ last
  views : ∀ (x : Int) known (role : Role) view, e.views[x]? = some known → known[role]? = some view →
    role = own ∧ memory.views[x]? = some view
  turns : ∀ (x : Int) turn, e.turns[x]? = some turn →
    ∃ move, memory.moves[x]? = some move ∧ turn = .single own move

variable {e : Evidence} {memory : MultiObserver} {own : Role} {first last : Int} {worlds : StateSet} {w : State}

lemma Spans.withView (h : e.Spans memory own first last worlds w) {x : Int} {view : View}
    (hx : first ≤ x ∧ x ≤ last) (hview : memory.views[x]? = some view) :
    (e.withView x own view).Spans memory own first last worlds w := by
  refine ⟨h.states, fun y hy => ?_, fun y known role v hknown hv => ?_, h.turns⟩
  · rcases mem_plies_withView.1 hy with rfl | hy
    · exact hx
    · exact h.plies y hy
  · simp only [Evidence.withView, Std.ExtTreeMap.getElem?_insert, Std.compare_eq_iff_eq] at hknown
    by_cases hsame : x = y
    · subst hsame
      rw [if_pos rfl, Option.some.injEq] at hknown
      simp only [← hknown, Std.ExtTreeMap.getElem?_insert, Std.compare_eq_iff_eq] at hv
      by_cases hown : own = role
      · rw [if_pos hown, Option.some.injEq] at hv
        exact ⟨hown.symm, hv ▸ hview⟩
      · rw [if_neg hown, Std.ExtTreeMap.getD_eq_getD_getElem?] at hv
        cases hbefore : e.views[x]? with
        | none => simp [hbefore] at hv
        | some before =>
          rw [hbefore] at hv
          exact h.views x before role v hbefore hv
    · rw [if_neg hsame] at hknown
      exact h.views y known role v hknown hv

lemma Spans.withTurn (h : e.Spans memory own first last worlds w) {x : Int} {move : Move}
    (hx : first ≤ x ∧ x ≤ last) (hmove : memory.moves[x]? = some move) :
    (e.withTurn x (.single own move)).Spans memory own first last worlds w := by
  refine ⟨h.states, fun y hy => ?_, h.views, fun y turn hturn => ?_⟩
  · rcases mem_plies_withTurn.1 hy with rfl | hy
    · exact hx
    · exact h.plies y hy
  · simp only [Evidence.withTurn, Std.ExtTreeMap.getElem?_insert, Std.compare_eq_iff_eq] at hturn
    by_cases hsame : x = y
    · subst hsame
      rw [if_pos rfl, Option.some.injEq] at hturn
      exact ⟨move, hmove, hturn.symm⟩
    · rw [if_neg hsame] at hturn
      exact h.turns y turn hturn

lemma Spans.range (h : e.Spans memory own first last worlds w) (hlt : first < last)
    (hle : last ≤ 2147483647) (hzero : 0 ≤ first) : e.offset = first ∧ e.horizon = last := by
  have hfirst : first ∈ e.plies := mem_plies.2 (.inl (by simp [h.states]))
  have hlast : last ∈ e.plies := mem_plies.2 (.inl (by simp [h.states]))
  exact ⟨offset_eq hfirst (by omega) fun x hx => (h.plies x hx).1,
    horizon_eq hlast (by omega) fun x hx => (h.plies x hx).2⟩

end Evidence

namespace MultiObserver

open Arena TreeAgent

variable {memory : MultiObserver} {own role : Role} {first last : Nat} {worlds : StateSet} {w : State}

/-- What an agent knows about the play between two plies. -/
lemma spans_evidence (memory : MultiObserver) (own : Role) (hlt : first < last) (worlds : StateSet)
    (w : State) : (memory.evidence own first last worlds w).Spans memory own first last worlds w := by
  have hstart : (((∅ : Evidence).withStates first worlds).withStates last {w}).Spans memory own first last
      worlds w := by
    refine ⟨rfl, fun x hx => ?_, fun x known role view h => ?_, fun x turn h => ?_⟩
    · rcases Evidence.mem_plies_withStates.1 hx with rfl | hx
      · omega
      · rcases Evidence.mem_plies_withStates.1 hx with rfl | hx
        · omega
        · exact absurd hx Evidence.not_mem_plies_empty
    · cases (Std.ExtTreeMap.getElem?_empty (a := x)).symm.trans h
    · cases (Std.ExtTreeMap.getElem?_empty (a := x)).symm.trans h
  have hviews := List.foldlRecOn (motive := fun e : Evidence => e.Spans memory own first last worlds w)
    memory.views.toList (fun e x => if (first : Int) ≤ x.1 ∧ x.1 ≤ last then e.withView x.1 own x.2 else e)
    hstart fun e he x hx => by
      split
      · exact he.withView ‹_› (Std.ExtTreeMap.mem_toList_iff_getElem?_eq_some.1 hx)
      · exact he
  refine List.foldlRecOn (motive := fun e : Evidence => e.Spans memory own first last worlds w)
    memory.moves.toList _ hviews fun e he x hx => ?_
  simp only
  split
  · exact he.withTurn (by omega) (Std.ExtTreeMap.mem_toList_iff_getElem?_eq_some.1 hx)
  · exact he

/-- A world can be located in the tree of a role: its root holds it, or a development leads there. -/
def Reaches (game : Game) (memory : MultiObserver) (own : Role) (first last : Nat) (worlds : StateSet)
    (w : State) : Prop :=
  (first = last ∧ w ∈ worlds) ∨
    first < last ∧ ∃ s ∈ worlds, game.Plays (memory.evidence own first last worlds w) (last - first) first s w

section Follow

variable {R : Type} {u : Upkeep} {course : Nat → State → Prop} {trees : ByRole NodeId} {base depth : Nat}
  {a : Arena R} {root id : NodeId} {p q : Place} {x y : Step} {rest : Development} {e : Evidence} {ply : Int}

/-- A development can be followed down the tree of another role, to a node that describes the state in
which it ends. -/
theorem follow_yields (h : Grove u (fun _ => False) own course trees base a) (hne : role ≠ own)
    (hroot : trees[role]? = some root) (hdescribes : a.Describes root role depth x.state id)
    (hfollows : u.game.Follows e ply (x :: rest)) :
    ∃ a' k last, follow u.game role id ply (x :: rest) a = .ok k a' ∧
      Grove u (fun _ => False) own course trees base a' ∧ Deepens trees a a' ∧
      (x :: rest).getLast? = some last ∧ a'.Describes root role (depth + rest.length) last.state k := by
  induction rest generalizing a x id ply depth with
  | nil =>
    obtain ⟨s, turn⟩ := x
    obtain ⟨-, hturn⟩ := Game.follows_singleton.1 hfollows
    simp only at hturn
    subst hturn
    exact ⟨a, id, _, rfl, h, .refl, rfl, hdescribes⟩
  | cons y rest ih =>
    obtain ⟨-, ⟨turn, hturn, hstep, -⟩, hrest⟩ := Game.follows_cons_cons.1 hfollows
    obtain ⟨s, known⟩ := x
    simp only at hturn hstep hdescribes
    subst hturn
    obtain ⟨q, hq, howner, hdepth, hw⟩ := hdescribes.place
    obtain ⟨a₁, q₁, hexpand, hgrown, hlisted, hdeepens, h₁⟩ := h.expandBelief hroot hdescribes.leads hq
    have hdescribes₁ := hdescribes.deepens h.sound.sane hdeepens
    have hsound := h₁.sound.kept id q₁ hgrown.place (by simp)
    have hfree : q₁.move = none := by
      rcases h₁.root_or_free hroot hdescribes₁.leads hgrown.place with rfl | hfree
      · obtain ⟨p, hp⟩ := h₁.root role id hroot
        rw [Option.some.inj (hgrown.place.symm.trans hp.place)]
        exact hp.move hne
      · exact hfree
    have hin : s ∈ q₁.belief.expanded := (hgrown.expanded s).2 (.inr hw)
    have hstate : u.states s := (h.sound.known id q hq).worlds s hw
    obtain ⟨edges, hedges⟩ := Option.ne_none_iff_exists'.1 hlisted
    obtain ⟨e, he, hfind, -, hto⟩ := turnIndex?_run hsound hedges hstate (hsound.out_of_free hfree hin hstep)
    have hnext := hdescribes₁.step hgrown.place hsound he
    rw [hto] at hnext
    obtain ⟨a₂, k, last, hrun, h₂, hdeepens₂, hlast, hdescribes₂⟩ := ih h₁ hnext hrest
    refine ⟨a₂, k, last, ?_, h₂, hdeepens.trans hdeepens₂, ?_, ?_⟩
    · rw [follow, Action.bind_of_ok ((expand_eq u.game hq).trans hexpand), Action.bind_of_ok (Action.get_run a₁),
        Action.bind_of_ok (Action.lift_of_ok (edges?_of_place? hgrown.place hedges) a₁), hfind]
      exact hrun
    · rw [List.getLast?_cons_cons]
      exact hlast
    · rw [List.length_cons, ← Nat.add_assoc, Nat.add_right_comm]
      exact hdescribes₂

end Follow

/-- The developments by which a world is located start in the worlds of the other root, and end in the
world. -/
lemma developments?_run {u : Upkeep} (memory : MultiObserver) (own : Role)
    (hworlds : ∀ s ∈ worlds, u.states s) (hlt : first < last) (hle : last ≤ 2147483647) (w : State) :
    ∃ ds, u.game.developments? (memory.evidence own first last worlds w) = .ok ds ∧
      (∀ d ∈ ds, ∃ x rest, d = x :: rest ∧ x.state ∈ worlds ∧ rest.length = last - first ∧
        u.game.Follows (memory.evidence own first last worlds w) first (x :: rest) ∧
        ∀ z, (x :: rest).getLast? = some z → z.state = w) ∧
      ((∃ s ∈ worlds, u.game.Plays (memory.evidence own first last worlds w) (last - first) first s w) →
        ds ≠ []) := by
  have hspans := spans_evidence memory own hlt worlds w
  set e := memory.evidence own first last worlds w
  obtain ⟨hoffset, hhorizon⟩ := hspans.range (by omega) (by omega) (by omega)
  have hne : (last : Int) ≠ first := by omega
  have hfirst : e.states[e.offset]? = some worlds := by
    rw [hoffset, hspans.states, Std.ExtTreeMap.getElem?_insert,
      if_neg (fun heq => hne (Std.compare_eq_iff_eq.1 heq)), Std.ExtTreeMap.getElem?_insert_self]
  have hlast : e.states[(last : Int)]? = some {w} := by
    rw [hspans.states, Std.ExtTreeMap.getElem?_insert_self]
  have horigins : u.game.origins? e = .ok worlds.toList := by
    rw [Game.origins?, hfirst]
  have hcount : (e.horizon - e.offset).toNat = last - first := by omega
  refine ⟨developments u e worlds.toList, developments?_eq horigins fun s hs =>
    hworlds s (Std.ExtTreeSet.mem_toList.1 hs), fun d hd => ?_, fun hplays hnil => ?_⟩
  · obtain ⟨s, hs, hd⟩ := List.mem_flatMap.1 hd
    obtain ⟨x, rest, rfl, hlength, rfl, hfollows⟩ := Game.mem_developmentsFrom.1 hd
    rw [hoffset] at hfollows
    rw [hcount] at hlength
    refine ⟨x, rest, rfl, Std.ExtTreeSet.mem_toList.1 hs, hlength, hfollows, fun z hz => ?_⟩
    have hget : (x :: rest)[rest.length]? = some z := by
      rw [← hz, List.getLast?_eq_getElem?, List.length_cons, Nat.add_sub_cancel]
    have hply : (first : Int) + rest.length = last := by omega
    exact StateSet.mem_singleton.1 (hfollows.states rest.length z {w} hget (hply ▸ hlast))
  · obtain ⟨s, hs, hplays⟩ := hplays
    have hends : Ends u e worlds.toList w := ⟨s, Std.ExtTreeSet.mem_toList.2 hs, by rw [hcount, hoffset]; exact hplays⟩
    obtain ⟨d, hd, -⟩ := ends_iff.1 hends
    rw [hnil] at hd
    cases hd

section Locate

variable {R ε : Type} {u : Upkeep} {course : Nat → State → Prop} {never : Fault → Prop}
  {x y z : Hosted (TreeAgent MultiObserver R ε) ε} {root r id : NodeId} {p q : Place}

/-- An agent that plays a role in a game has a tree for each role but chance, and knows some nodes at which
worlds of its own root are. -/
structure At (u : Upkeep) (own : Role) (course : Nat → State → Prop)
    (x : Hosted (TreeAgent MultiObserver R ε) ε) (root : NodeId) (p : Place) : Prop where
  game : x.own.seat.game = some u.game
  seated : x.own.seat.role = some own
  roles : ∀ role : Role, role ∈ x.own.memory.trees ↔ role ∈ u.game.roles ∧ role ≠ chance
  planted : x.own.memory.trees[own]? = some root
  place : x.own.arena.place? root = some p
  grove : Grove u (fun _ => False) own course x.own.memory.trees p.depth x.own.arena
  located : ∀ (role : Role) w id, x.own.memory.locations[(role, w)]? = some id →
    ∃ r, x.own.memory.trees[role]? = some r ∧ x.own.arena.Describes r role p.depth w id

/-- An agent goes on searching. -/
structure Deeper (x y : Hosted (TreeAgent MultiObserver R ε) ε) : Prop where
  seat : y.own.seat = x.own.seat
  selector : y.own.selector = x.own.selector
  chooser : y.own.chooser = x.own.chooser
  evaluator : y.own.evaluator = x.own.evaluator
  trees : y.own.memory.trees = x.own.memory.trees
  views : y.own.memory.views = x.own.memory.views
  moves : y.own.memory.moves = x.own.memory.moves
  deepens : Deepens x.own.memory.trees x.own.arena y.own.arena

lemma Deeper.refl : Deeper x x := ⟨rfl, rfl, rfl, rfl, rfl, rfl, rfl, .refl⟩

lemma Deeper.trans (h : Deeper x y) (h' : Deeper y z) : Deeper x z :=
  ⟨h'.seat.trans h.seat, h'.selector.trans h.selector, h'.chooser.trans h.chooser,
    h'.evaluator.trans h.evaluator, h'.trees.trans h.trees, h'.views.trans h.views, h'.moves.trans h.moves,
    h.deepens.trans (h.trees ▸ h'.deepens)⟩

lemma At.undisturbed (h : At u own course x root p) (hxy : Undisturbed x y) : At u own course y root p := by
  constructor
  · rw [hxy.seat, h.game]
  · rw [hxy.seat, h.seated]
  · rw [hxy.memory]
    exact h.roles
  · rw [hxy.memory, h.planted]
  · rw [hxy.arena, h.place]
  · rw [hxy.memory, hxy.arena]
    exact h.grove
  · rw [hxy.memory, hxy.arena]
    exact h.located

/-- Growth below the roots keeps what an agent has. -/
lemma At.deepens {a : Arena R} (h : At u own course x root p)
    (hdeepens : Deepens x.own.memory.trees x.own.arena a) (hsound : a.AllSound u) (host : ε) :
    ∃ q, At u own course (withTrees x ⟨a, host⟩) root q ∧ p.Alike q ∧ Deeper x (withTrees x ⟨a, host⟩) := by
  obtain ⟨q, hq, halike⟩ := hdeepens.roots own root p h.planted h.place
  refine ⟨q, ⟨h.game, h.seated, h.roles, h.planted, hq, ?_, fun role w id hid => ?_⟩, halike,
    ⟨rfl, rfl, rfl, rfl, rfl, rfl, rfl, hdeepens⟩⟩
  · rw [halike.depth]
    exact h.grove.deepens hdeepens hsound
  · obtain ⟨r, hr, hdescribes⟩ := h.located role w id hid
    rw [halike.depth]
    exact ⟨r, hr, hdescribes.deepens h.grove.sound.sane hdeepens⟩

lemma At.remember {r : NodeId} (h : At u own course x root p) (hr : x.own.memory.trees[role]? = some r)
    (hdescribes : x.own.arena.Describes r role p.depth w id) :
    At u own course (withMemory x { x.own.memory with
      locations := x.own.memory.locations.insert (role, w) id }) root p := by
  refine ⟨h.game, h.seated, h.roles, h.planted, h.place, h.grove, fun role' w' id' hid => ?_⟩
  rw [withMemory, Std.HashMap.getElem?_insert] at hid
  split at hid
  · rename_i hsame
    rw [beq_iff_eq, Prod.mk.injEq] at hsame
    rw [Option.some.injEq] at hid
    obtain ⟨rfl, rfl⟩ := hsame
    subst hid
    exact ⟨r, hr, hdescribes⟩
  · exact h.located role' w' id' hid

/-- A world is looked for along one of the developments that lead to it from the worlds of a root. -/
def locateAlong [Dice ε] (game : Game) (role : Role) (r : NodeId) (first : Nat) (e : Evidence) (w : State) :
    Deliberation MultiObserver R ε NodeId := do
  let developments ← game.developments? e
  if developments.isEmpty then throw (.worldUnreachable w.text role.text first)
  let development ← Hosted.onHost (Dice.choose developments)
  let id ← TreeAgent.onArena (follow game role r first development)
  TreeAgent.remember fun memory => { memory with locations := memory.locations.insert (role, w) id }
  return id

/-- Whether a development has to be followed depends on the roots and on what was located before. -/
lemma At.locate_eq [Dice ε] {pr : Place} (h : At u own course x root p)
    (hr : x.own.memory.trees[role]? = some r) (hpr : x.own.arena.place? r = some pr) :
    (locate u.game own role w : Deliberation MultiObserver R ε NodeId) x =
      (if pr.depth = p.depth then
        if pr.belief.worlds.contains w then pure r else throw (.worldNotHeld role.text p.depth w.text)
      else match x.own.memory.locations[(role, w)]? with
        | some id => pure id
        | none => locateAlong u.game role r pr.depth
            (x.own.memory.evidence own pr.depth p.depth pr.belief.worlds w) w :
        Deliberation MultiObserver R ε NodeId) x := by
  obtain ⟨v, hn⟩ := find?_of_place? hpr
  obtain ⟨v', hn'⟩ := find?_of_place? h.place
  have hroot? : x.own.memory.root? role = .ok r := by rw [root?, hr]
  have hown? : x.own.memory.root? own = .ok root := by rw [root?, h.planted]
  have hnode : x.own.arena.node? r = .ok (pr.toNode v) := by rw [node?, hn]
  have hnode' : x.own.arena.node? root = .ok (p.toNode v') := by rw [node?, hn']
  unfold locate
  refine (Action.bind_of_ok memorized_run).trans ((Action.bind_of_ok (Action.lift_of_ok hroot? x)).trans ?_)
  refine (Action.bind_of_ok (onArena_of_ok (Action.get_run _))).trans ?_
  refine (Action.bind_of_ok (Action.lift_of_ok (belief?_of_place? hpr) x)).trans ?_
  refine (Action.bind_of_ok (Action.lift_of_ok hnode x)).trans ?_
  refine (Action.bind_of_ok (Action.lift_of_ok hown? x)).trans ?_
  exact Action.bind_of_ok (Action.lift_of_ok hnode' x)

/-- A world is located at the root of a role that is for the ply of the agent's own root. -/
lemma At.locate_level [Dice ε] {pr : Place} (h : At u own course x root p)
    (hr : x.own.memory.trees[role]? = some r) (hpr : x.own.arena.place? r = some pr)
    (hsame : pr.depth = p.depth) (hw : w ∈ pr.belief.worlds) :
    (locate u.game own role w : Deliberation MultiObserver R ε NodeId) x = .ok r x := by
  rw [h.locate_eq hr hpr, if_pos hsame, if_pos (Std.ExtTreeSet.mem_iff_contains.1 hw)]
  rfl

/-- Along a development a node that describes the world is found or made, if there is a development. -/
lemma At.locateAlong_ensures [Dice ε] {pr : Place} (h : At u own course x root p) (hle : p.depth ≤ 2147483647)
    (hne : role ≠ own) (hr : x.own.memory.trees[role]? = some r) (hpr : x.own.arena.place? r = some pr)
    (hlt : pr.depth < p.depth)
    (hreaches : (∃ f, never f ∧ f.kind = .mismatch) →
      Reaches u.game x.own.memory own pr.depth p.depth pr.belief.worlds w) :
    Action.Ensures never (locateAlong u.game role r pr.depth
        (x.own.memory.evidence own pr.depth p.depth pr.belief.worlds w) w :
        Deliberation MultiObserver R ε NodeId) x fun id y =>
      ∃ q, At u own course y root q ∧ p.Alike q ∧ Deeper x y ∧
        y.own.arena.Describes r role p.depth w id := by
  obtain ⟨pr', hroot⟩ := h.grove.root role r hr
  obtain rfl : pr = pr' := Option.some.inj (hpr.symm.trans hroot.place)
  obtain ⟨ds, hds, hfollows, hne'⟩ := developments?_run x.own.memory own
    (fun s hs => (h.grove.sound.known r pr hpr).worlds s hs) hlt hle w
  unfold locateAlong
  refine Action.ensures_bind_of_ok (Action.lift_of_ok hds x) ?_
  split
  · rename_i hempty
    refine Action.ensures_of_error rfl fun hnever => ?_
    rcases hreaches ⟨_, hnever, rfl⟩ with ⟨heq, -⟩ | ⟨-, hplays⟩
    · exact absurd heq (Nat.ne_of_lt hlt)
    · exact hne' hplays (List.isEmpty_iff.1 hempty)
  · rename_i hempty
    obtain ⟨d, host, hchoose, hd⟩ := Dice.choose_run (fun hnil => hempty (List.isEmpty_iff.2 hnil)) x.host
    obtain ⟨first, rest, rfl, hfirst, hlength, hd, hlast⟩ := hfollows d hd
    have hdescribes : x.own.arena.Describes r role pr.depth first.state r :=
      ⟨.refl, pr, hpr, hroot.owner, rfl, hfirst⟩
    obtain ⟨a, k, last, hrun, hgrove, hdeepens, hend, hfound⟩ := follow_yields h.grove hne hr hdescribes hd
    rw [hlast last hend, hlength, Nat.add_sub_cancel' (Nat.le_of_lt hlt)] at hfound
    obtain ⟨q, hq, halike, hdeeper⟩ := h.deepens hdeepens hgrove.sound host
    refine Action.ensures_bind_of_ok (Hosted.onHost_eq_ok.2 ⟨host, hchoose, rfl⟩) ?_
    refine Action.ensures_bind_of_ok (onArena_of_ok hrun) ?_
    refine Action.ensures_bind_of_ok (remember_run _) ?_
    rw [← halike.depth] at hfound
    refine Action.ensures_of_ok rfl ⟨q, hq.remember hr hfound, halike, ?_, halike.depth ▸ hfound⟩
    exact ⟨rfl, rfl, rfl, rfl, rfl, rfl, rfl, hdeepens⟩

/-- A world is located at a node that describes it, if there is a development that leads there. -/
theorem locate_ensures [Dice ε] {pr : Place} (h : At u own course x root p) (hle : p.depth ≤ 2147483647)
    (hne : role ≠ own) (hr : x.own.memory.trees[role]? = some r) (hpr : x.own.arena.place? r = some pr)
    (hreaches : (∃ f, never f ∧ f.kind = .mismatch) →
      Reaches u.game x.own.memory own pr.depth p.depth pr.belief.worlds w) :
    Action.Ensures never (locate u.game own role w : Deliberation MultiObserver R ε NodeId) x fun id y =>
      ∃ q, At u own course y root q ∧ p.Alike q ∧ Deeper x y ∧
        y.own.arena.Describes r role p.depth w id := by
  obtain ⟨pr', hroot⟩ := h.grove.root role r hr
  obtain rfl : pr = pr' := Option.some.inj (hpr.symm.trans hroot.place)
  refine Action.ensures_of_eq (h.locate_eq hr hpr) ?_
  by_cases hsame : pr.depth = p.depth
  · rw [if_pos hsame]
    split
    · rename_i hheld
      exact Action.ensures_of_ok rfl ⟨p, h, .refl p, .refl, .refl, pr, hpr, hroot.owner, hsame, hheld⟩
    · rename_i hheld
      refine Action.ensures_of_error rfl fun hnever => ?_
      rcases hreaches ⟨_, hnever, rfl⟩ with ⟨-, hin⟩ | ⟨hlt, -⟩
      · exact hheld hin
      · exact absurd hsame (Nat.ne_of_lt hlt)
  · rw [if_neg hsame]
    cases hlocated : x.own.memory.locations[(role, w)]? with
    | some id =>
      obtain ⟨r', hr', hdescribes⟩ := h.located role w id hlocated
      rw [hr, Option.some.injEq] at hr'
      subst hr'
      exact Action.ensures_of_ok rfl ⟨p, h, .refl p, .refl, hdescribes⟩
    | none =>
      exact h.locateAlong_ensures hle hne hr hpr (Nat.lt_of_le_of_ne hroot.le hsame) hreaches

/-- A world can be located in the trees of all other roles. -/
def Locatable (game : Game) (own : Role) (depth : Nat) (w : State)
    (x : Hosted (TreeAgent MultiObserver R ε) ε) : Prop :=
  ∀ (role : Role) (r : NodeId) q, role ≠ own → x.own.memory.trees[role]? = some r →
    x.own.arena.place? r = some q → Reaches game x.own.memory own q.depth depth q.belief.worlds w

lemma Deeper.reaches {q' : Place} (h : Deeper x y) (halike : q.Alike q') {depth : Nat}
    (hreaches : Reaches u.game x.own.memory own q.depth depth q.belief.worlds w) :
    Reaches u.game y.own.memory own q'.depth depth q'.belief.worlds w := by
  rw [halike.depth, halike.worlds]
  unfold Reaches evidence at hreaches ⊢
  rw [h.views, h.moves]
  exact hreaches

/-- The nodes for a world of the agent's own root are in step. -/
theorem locateAll_ensures [Dice ε] (h : At u own course x root p) (hle : p.depth ≤ 2147483647)
    (hw : w ∈ p.belief.worlds)
    (hlocatable : (∃ f, never f ∧ f.kind = .mismatch) → Locatable u.game own p.depth w x) :
    Action.Ensures never (locateAll u.game own w : Deliberation MultiObserver R ε (ByRole NodeId)) x
      fun nodes y => ∃ q, At u own course y root q ∧ p.Alike q ∧ Deeper x y ∧
        InStep y.own.arena x.own.memory.trees p.depth ⟨nodes, w⟩ := by
  unfold locateAll
  refine Action.ensures_bind_of_ok memorized_run ?_
  refine (Action.ensures_mapM (I := fun (before : List (Role × NodeId)) (found : List (Role × NodeId)) y =>
    ∃ q, At u own course y root q ∧ p.Alike q ∧ Deeper x y ∧ found.map Prod.fst = before.map Prod.fst ∧
      ∀ e ∈ found, ∃ r, x.own.memory.trees[e.1]? = some r ∧
        y.own.arena.Describes r e.1 p.depth w e.2) ?_
    ⟨p, h, .refl p, .refl, rfl, by simp⟩).bind fun found y hfound => ?_
  · rintro before ⟨role, r⟩ after found y hl ⟨q, hq, halike, hdeeper, hroles, hfound⟩
    have hr : x.own.memory.trees[role]? = some r :=
      Std.ExtTreeMap.mem_toList_iff_getElem?_eq_some.1 (by simp [hl])
    -- What was located before still describes the world: later calls only let the trees grow.
    have hextend : ∀ {z : Hosted (TreeAgent MultiObserver R ε) ε} {id : NodeId}, Deeper y z →
        z.own.arena.Describes r role p.depth w id → ∀ e ∈ found ++ [(role, id)],
          ∃ r, x.own.memory.trees[e.1]? = some r ∧ z.own.arena.Describes r e.1 p.depth w e.2 := by
      intro z id hyz hid e he
      rcases List.mem_append.1 he with he | he
      · obtain ⟨r', hr', hdescribes⟩ := hfound e he
        exact ⟨r', hr', hdescribes.deepens hq.grove.sound.sane hyz.deepens⟩
      · rw [List.mem_singleton.1 he]
        exact ⟨r, hr, hid⟩
    simp only
    by_cases hown : role = own
    · rw [if_pos hown]
      subst hown
      rw [h.planted, Option.some.injEq] at hr
      subst hr
      obtain ⟨q', hq'⟩ := hq.grove.root role root hq.planted
      have hdescribes : y.own.arena.Describes root role p.depth w root := by
        refine ⟨.refl, q, hq.place, ?_, halike.depth, halike.worlds ▸ hw⟩
        rw [Option.some.inj (hq.place.symm.trans hq'.place)]
        exact hq'.owner
      exact Action.ensures_of_ok rfl ⟨q, hq, halike, hdeeper, by simp [hroles], hextend .refl hdescribes⟩
    · rw [if_neg hown]
      obtain ⟨pr, hpr⟩ := h.grove.root role r hr
      obtain ⟨pr', hpr', halike'⟩ := hdeeper.deepens.roots role r pr hr hpr.place
      refine (locate_ensures hq (by rw [halike.depth]; exact hle) hown (hdeeper.trees.symm ▸ hr) hpr'
        fun hnever => ?_).bind fun id z hid => ?_
      · rw [halike.depth]
        exact hdeeper.reaches halike' (hlocatable hnever role r pr hown hr hpr.place)
      · obtain ⟨q', hq', halike₁, hdeeper₁, hdescribes⟩ := hid
        rw [halike.depth] at hdescribes
        exact Action.ensures_of_ok rfl ⟨q', hq', halike.trans halike₁, hdeeper.trans hdeeper₁,
          by simp [hroles], hextend hdeeper₁ hdescribes⟩
  · obtain ⟨q, hq, halike, hdeeper, hroles, hfound⟩ := hfound
    have hnodup : (found.map Prod.fst).Nodup := by
      rw [hroles, Std.ExtTreeMap.map_fst_toList_eq_keys]
      exact Std.ExtTreeMap.nodup_keys
    refine Action.ensures_of_ok rfl ⟨q, hq, halike, hdeeper, fun role => ?_, fun role r id hr hid => ?_⟩
    · rw [Std.ExtTreeMap.mem_ofList, List.contains_iff_mem, hroles, Std.ExtTreeMap.map_fst_toList_eq_keys,
        Std.ExtTreeMap.mem_keys]
    · rw [ByRole.getElem?_ofList hnodup] at hid
      obtain ⟨r', hr', hdescribes⟩ := hfound (role, id) hid
      rw [hr, Option.some.injEq] at hr'
      exact hr' ▸ hdescribes

end Locate

end MultiObserver

end GameSearch
