import GameSearch.Proofs.Agent.Simulation

/-!
# The trees of an agent that searches from every point of view

What `At` says of the trees of an agent holds when a match begins, and simulations, developing the trees
and committing the agent to a move keep it.
-/

namespace GameSearch

namespace Place

variable {u : Upkeep} {p q q' : Place} {ply : Int} {view : View} {observed : Evidence}

lemma Limited.role (h : q.Limited q') : q'.role = q.role := by
  cases h with
  | whole _ => rfl
  | sample _ hakin _ _ => exact hakin.role

/-- If a place says when its owner is in control, then so does what is found from it. -/
lemma Meets.inCharge (h : p.Meets u ply view observed q) (hrole : q.role = p.role) (hp : p.InCharge) :
    q.InCharge := by
  rcases h.stems with ⟨-, hbelow, hshows, hworlds, hakin⟩ | ⟨hcontrol, -, -, hstanding⟩
  · rename_i j c
    intro s hs
    rw [hrole, isVisible_eq_of_standing hakin.standing, observe_isVisible]
    cases j with
    | zero =>
      cases hbelow with
      | here hsame =>
        rw [isVisible_eq_of_standing hsame.standing]
        exact hp s (hworlds s hs).2
    | succ j =>
      rw [← hbelow.role]
      exact (hshows (Nat.succ_pos j)).inCharge s (hworlds s hs).1
  · refine inCharge_of_standing (v := fun _ => view) fun s hs => ?_
    rw [hstanding, hrole, hcontrol s hs]

lemma Meets.inCharge_of_limited (h : p.Meets u ply view observed q) (hlimited : (q.recording observed).Limited q')
    (hrole : q'.role = p.role) (hp : p.InCharge) : q'.InCharge := by
  have hq : q.InCharge := h.inCharge (hlimited.role.symm.trans hrole) hp
  exact hq.congr hlimited.standing hlimited.role hlimited.worlds

end Place

namespace MultiObserver

open Arena TreeAgent

variable {R ε : Type} {u : Upkeep} {own role : Role} {course : Nat → State → Prop}
  {x y : Hosted (TreeAgent MultiObserver R ε) ε} {root k : NodeId} {p q : Place} {ply : Int} {view : View}
  {move : Move}

/-! ## The beginning of a match -/

/-- Trees have been planted for some roles. -/
structure Planted (u : Upkeep) (own : Role) (course : Nat → State → Prop) (roles : List Role)
    (x y : Hosted (TreeAgent MultiObserver R ε) ε) : Prop where
  seat : y.own.seat = x.own.seat
  memory : ∃ trees, y.own.memory = { trees := trees }
  grove : Grove u (fun _ => False) own course y.own.memory.trees 0 y.own.arena
  roles : ∀ role : Role, role ∈ y.own.memory.trees ↔ role ∈ roles ∧ role ≠ chance
  first : ∀ (role : Role) (root : NodeId), y.own.memory.trees[role]? = some root →
    y.own.arena.place? root = some (firstPlace u.game role)

lemma firstPlace_inCharge (game : Game) (role : Role) : (firstPlace game role).InCharge := by
  refine Place.inCharge_of_standing (v := fun _ => game.viewOf game.start role) fun s hs => ?_
  rw [StateSet.mem_singleton.1 hs]
  rfl

lemma Planted.skip {roles : List Role} (h : Planted u own course roles x y) (hchance : role = chance) :
    Planted u own course (roles ++ [role]) x y := by
  refine ⟨h.seat, h.memory, h.grove, fun role' => ?_, h.first⟩
  rw [h.roles, List.mem_append, List.mem_singleton, hchance]
  tauto

lemma Planted.plant {roles : List Role} (h : Planted u own course roles x y) (hstart : u.states u.game.start)
    (hcourse : ∀ s, course 0 s → s = u.game.start) (hrole : role ≠ chance) :
    ∃ n k a, SingleObserver.firstBelief? u.game role = .ok n ∧ Arena.add (.ok n) y.own.arena = .ok k a ∧
      Planted u own course (roles ++ [role]) x (withMemory (withTrees y ⟨a, y.host⟩)
        { y.own.memory with trees := y.own.memory.trees.insert role k }) := by
  obtain ⟨n, k, a, hbelief, hadd, hnone, hsound, hplaces⟩ := firstBelief?_yields h.grove.sound hstart role
  obtain ⟨trees, hmemory⟩ := h.memory
  have hfirst : ∀ (role' : Role) (root : NodeId), (y.own.memory.trees.insert role k)[role']? = some root →
      a.place? root = some (firstPlace u.game role') := by
    intro role' root hroot
    rw [Std.ExtTreeMap.getElem?_insert] at hroot
    split at hroot
    · rename_i hsame
      rw [Std.compare_eq_iff_eq] at hsame
      rw [Option.some.injEq] at hroot
      subst hsame hroot
      rw [hplaces, Function.update_self]
    · have hbefore := h.first role' root hroot
      have hne : root ≠ k := by
        rintro rfl
        rw [hbefore] at hnone
        cases hnone
      rw [hplaces, Function.update_of_ne hne, hbefore]
  refine ⟨n, k, a, hbelief, hadd, h.seat, ⟨_, by rw [hmemory]; rfl⟩, ⟨hsound, fun role' root hroot => ?_⟩,
    fun role' => ?_, hfirst⟩
  · exact ⟨firstPlace u.game role', hfirst role' root hroot, rfl, rfl, Nat.le_refl 0, fun _ _ hfalse => hfalse.elim,
      fun _ => rfl, fun _ s hs => StateSet.mem_singleton.2 (hcourse s hs), fun _ => rfl,
      fun _ => firstPlace_inCharge u.game role'⟩
  · have hroles := h.roles role'
    simp only [withMemory, Std.ExtTreeMap.mem_insert, Std.compare_eq_iff_eq, List.mem_append,
      List.mem_singleton]
    rw [hroles]
    constructor
    · rintro (rfl | ⟨hin, hne⟩)
      · exact ⟨.inr rfl, hrole⟩
      · exact ⟨.inl hin, hne⟩
    · rintro ⟨hin | rfl, hne⟩
      · exact .inr ⟨hin, hne⟩
      · exact .inl rfl

lemma planted_nothing (hmemory : x.own.memory = {}) (startClock playClock : Clock.Settings Binary64) :
    Planted u own course [] (TreeAgent.seated x u.game own startClock playClock)
      (TreeAgent.seated x u.game own startClock playClock) := by
  have hnone : (TreeAgent.seated x u.game own startClock playClock).own.memory.trees = ∅ := by
    change x.own.memory.trees = ∅
    rw [hmemory]
  refine ⟨rfl, ⟨∅, hmemory⟩, ⟨sound_empty, fun role root hroot => ?_⟩, fun role => ?_, fun role root hroot => ?_⟩
  · rw [hnone] at hroot
    cases (Std.ExtTreeMap.getElem?_empty (a := role)).symm.trans hroot
  · rw [hnone]
    simp
  · rw [hnone] at hroot
    cases (Std.ExtTreeMap.getElem?_empty (a := role)).symm.trans hroot

/-- A tree is planted for each role but chance, among which the agent's own role must be. -/
lemma plant_ensures {never : Fault → Prop} (hempty : Planted u own course [] x x)
    (hgame : x.own.seat.game = some u.game) (hseated : x.own.seat.role = some own)
    (hstart : u.states u.game.start) (hcourse : ∀ s, course 0 s → s = u.game.start)
    (hnever : ∀ f, never f → own ∈ u.game.roles ∧ own ≠ chance) :
    Action.Ensures never (MultiObserver.plant : Deliberation MultiObserver R ε Unit) x
      fun _ y => Planted u own course u.game.roles x y ∧ own ∈ y.own.memory.trees := by
  unfold MultiObserver.plant
  refine Action.ensures_bind_of_ok (gameAndRole_run hgame hseated label) ?_
  refine (Action.ensures_forIn (I := fun before y => Planted u own course before x y) ?_ hempty).bind
    fun _ y hy => ?_
  · intro before role after y _ hy
    by_cases hchance : role = chance
    · refine Action.ensures_of_ok (t := y) (by rw [if_neg (not_not.2 hchance)]; rfl) ⟨rfl, hy.skip hchance⟩
    · obtain ⟨n, k, a, hbelief, hadd, hplanted⟩ := hy.plant hstart hcourse hchance
      rw [if_pos hchance]
      refine Action.ensures_bind_of_ok (Action.lift_of_ok hbelief y) ?_
      refine Action.ensures_bind_of_ok (onArena_of_ok hadd) ?_
      refine Action.ensures_bind_of_ok (remember_run _) ?_
      exact Action.ensures_of_ok rfl ⟨rfl, hplanted⟩
  · refine Action.ensures_bind_of_ok memorized_run ?_
    by_cases hown : own ∈ y.own.memory.trees
    · have hcontains : y.own.memory.trees.contains own = true := Std.ExtTreeMap.mem_iff_contains.1 hown
      simp only [hcontains]
      exact Action.ensures_of_ok rfl ⟨hy, hown⟩
    · have hcontains : y.own.memory.trees.contains own = false := by
        rw [← Bool.not_eq_true, ← Std.ExtTreeMap.mem_iff_contains]
        exact hown
      simp only [hcontains]
      exact Action.ensures_of_error (f := .notARole own.text) (t := y) rfl
        fun hf => hown ((hy.roles own).2 (hnever _ hf))

/-- When a match begins, there is a tree for each role but chance. -/
theorem At.prepare [Scalar R] [Host ε] (hmemory : x.own.memory = {}) {ruleset : Ruleset}
    {startClock playClock : Clock.Settings Binary64} (hsource : x.own.seat.source ruleset = .ok (some u.game))
    (hstart : u.states u.game.start) (course : Nat → State → Prop) (hcourse : ∀ s, course 0 s → s = u.game.start)
    (hprepare : (TreeAgent.prepare own ruleset startClock playClock :
      Deliberation MultiObserver R ε Unit) x = .ok ⟨⟩ y) :
    ∃ root, At u own course y root (firstPlace u.game own) ∧ y.own.memory.views = ∅ ∧ y.own.memory.moves = ∅ := by
  rw [prepare_run startClock playClock hsource] at hprepare
  have hempty := @planted_nothing _ _ u own course x hmemory startClock playClock
  obtain ⟨hy, hown⟩ := (plant_ensures hempty rfl rfl hstart hcourse fun _ hf => hf).of_ok hprepare
  obtain ⟨trees, hmemory⟩ := hy.memory
  obtain ⟨root, hroot⟩ := Option.isSome_iff_exists.1 (Std.ExtTreeMap.mem_iff_isSome_getElem?.1 hown)
  refine ⟨root, ⟨by rw [hy.seat]; rfl, by rw [hy.seat]; rfl, hy.roles, hroot, hy.first own root hroot, hy.grove,
    fun role w id hid => ?_⟩, by rw [hmemory], by rw [hmemory]⟩
  rw [hmemory] at hid
  simp at hid

/-- A match can begin if the agent plays one of the roles. -/
theorem prepare_yields [Scalar R] [Host ε] (hmemory : x.own.memory = {}) {ruleset : Ruleset}
    (startClock playClock : Clock.Settings Binary64) (hsource : x.own.seat.source ruleset = .ok (some u.game))
    (hstart : u.states u.game.start) (hrole : own ∈ u.game.roles) (hne : own ≠ chance) :
    ∃ y, (TreeAgent.prepare own ruleset startClock playClock :
      Deliberation MultiObserver R ε Unit) x = .ok ⟨⟩ y := by
  rw [prepare_run startClock playClock hsource]
  have hempty := @planted_nothing _ _ u own (fun _ _ => False) x hmemory startClock playClock
  obtain ⟨_, y, hrun, -⟩ := Action.Ensures.yields
    (plant_ensures hempty rfl rfl hstart (fun _ => False.elim) fun _ _ => ⟨hrole, hne⟩)
  exact ⟨y, hrun⟩

/-! ## New roots -/

/-- The agent's own tree has a new root, and the other trees may catch up with it. -/
structure Regrown (u : Upkeep) (own : Role) (course : Nat → State → Prop) (root : NodeId) (q : Place)
    (x y : Hosted (TreeAgent MultiObserver R ε) ε) : Prop where
  seat : y.own.seat = x.own.seat
  views : y.own.memory.views = x.own.memory.views
  moves : y.own.memory.moves = x.own.memory.moves
  roles : ∀ role : Role, role ∈ y.own.memory.trees ↔ role ∈ x.own.memory.trees
  planted : y.own.memory.trees[own]? = some root
  place : y.own.arena.place? root = some q
  grove : ∃ but, Grove u but own course y.own.memory.trees q.depth y.own.arena

lemma Regrown.reroot (h : Regrown u own course root q x y) (hne : role ≠ own)
    (hrole : role ∈ y.own.memory.trees) {a : Arena R} {k : NodeId} {p : Place} {but : NodeId → Prop}
    (hother : root ≠ k) (hplaces : a.place? = Function.update y.own.arena.place? k (some p))
    (hgrove : Grove u but own course (y.own.memory.trees.insert role k) q.depth a) (host : ε) :
    Regrown u own course root q x
      (withTrees (withMemory y { y.own.memory with trees := y.own.memory.trees.insert role k }) ⟨a, host⟩) := by
  refine ⟨h.seat, h.views, h.moves, fun role' => ?_, ?_, ?_, _, hgrove⟩
  · rw [← h.roles]
    simp only [withMemory, withTrees, Std.ExtTreeMap.mem_insert, Std.compare_eq_iff_eq]
    exact ⟨fun hin => hin.elim (fun heq => heq ▸ hrole) id, .inr⟩
  · simp only [withMemory, withTrees, Std.ExtTreeMap.getElem?_insert, Std.compare_eq_iff_eq]
    rw [if_neg hne]
    exact h.planted
  · rw [← h.place]
    exact (congrFun hplaces root).trans (Function.update_of_ne hother _ _)

/-- The tree of another role catches up if the role can be at one node only. -/
lemma catchUp_ensures {never : Fault → Prop} (h : Regrown u own course root q x y) (hne : role ≠ own)
    (hrole : role ∈ y.own.memory.trees) (hcourse : ∀ s, course q.depth s → s ∈ q.belief.worlds) :
    Action.Ensures never (catchUp own role q.depth : Deliberation MultiObserver R ε Unit) y
      fun _ z => Regrown u own course root q x z := by
  obtain ⟨but, hgrove⟩ := h.grove
  obtain ⟨r, hr⟩ := Option.isSome_iff_exists.1 (Std.ExtTreeMap.mem_iff_isSome_getElem?.1 hrole)
  obtain ⟨pr, hroot⟩ := hgrove.root role r hr
  obtain ⟨v, hn⟩ := find?_of_place? hroot.place
  have hroot? : y.own.memory.root? role = .ok r := by rw [root?, hr]
  have hown? : y.own.memory.root? own = .ok root := by rw [root?, h.planted]
  have hnode : y.own.arena.node? r = .ok (pr.toNode v) := by rw [node?, hn]
  unfold catchUp
  refine Action.ensures_bind_of_ok memorized_run ?_
  refine Action.ensures_bind_of_ok (Action.lift_of_ok hroot? y) ?_
  refine Action.ensures_bind_of_ok (onArena_of_ok (Action.get_run _)) ?_
  refine Action.ensures_bind_of_ok (Action.lift_of_ok hnode y) ?_
  by_cases hle : (q.depth : Int) ≤ (pr.toNode v).depth
  · rw [if_pos hle]
    exact Action.ensures_of_ok rfl h
  · rw [if_neg hle]
    have hlt : pr.depth < q.depth := by
      rw [Place.toNode_depth] at hle
      omega
    cases hfrontier : expandedBelow y.own.arena ((q.depth : Int) - (pr.toNode v).depth).toNat [r] with
    | none => exact Action.ensures_of_ok rfl h
    | some frontier =>
      rw [Place.toNode_depth, show ((q.depth : Int) - pr.depth).toNat = q.depth - pr.depth by omega] at hfrontier
      have hplaces := expandedBelow_places hgrove.sound
        (fun x hx => by
          rw [List.mem_singleton.1 hx]
          exact ⟨.refl, pr, hroot.place, rfl⟩) hfrontier
      obtain ⟨found, hfound, hsole⟩ := soleHolder?_run (a := y.own.arena) q.belief.worlds fun k hk =>
        (hplaces k hk).2.imp fun _ hc => hc.1
      refine Action.ensures_bind_of_ok (Action.lift_of_ok hown? y) ?_
      refine Action.ensures_bind_of_ok (Action.lift_of_ok (belief?_of_place? h.place) y) ?_
      refine Action.ensures_bind_of_ok (onArena_of_ok hfound) ?_
      cases found with
      | none => exact Action.ensures_of_ok rfl h
      | some k =>
        obtain ⟨hk, hheld⟩ := hsole k rfl
        obtain ⟨a, c, hc, howner, hdetach, hgrove', hplaces'⟩ :=
          hgrove.catchUp hne hroot hr hlt hfrontier hk hheld hcourse
        refine Action.ensures_bind_of_ok (remember_run _) ?_
        refine Action.ensures_of_ok (onArena_of_ok hdetach) ?_
        have hother : root ≠ k := by
          rintro rfl
          obtain ⟨q', hq'⟩ := hgrove.root own root h.planted
          rw [hq'.place, Option.some.injEq] at hc
          exact hne (by rw [← howner, ← hc, hq'.owner])
        exact h.reroot hne hrole hother hplaces' hgrove' y.host

/-- After the new roots are in place, all that is left is sound. -/
lemma tidy_ensures {course' : Nat → State → Prop} {root' : NodeId} {p : Place} {never : Fault → Prop}
    (hx : At u own course' x root' p) (h : Regrown u own course root q x y) :
    Action.Ensures never (tidy : Deliberation MultiObserver R ε Unit) y fun _ z =>
      At u own course z root q ∧ z.own.memory.views = x.own.memory.views ∧
        z.own.memory.moves = x.own.memory.moves := by
  obtain ⟨but, hgrove⟩ := h.grove
  obtain ⟨hswept, hkept⟩ := hgrove.sweep
  unfold tidy
  refine Action.ensures_bind_of_ok (remember_run _) ?_
  refine Action.ensures_bind_of_ok memorized_run ?_
  refine Action.ensures_of_ok (onArena_of_ok (Action.modify_run _ _)) ⟨⟨?_, ?_, fun role => ?_, h.planted, ?_, hswept,
    fun role w id hid => ?_⟩, h.views, h.moves⟩
  · exact (congrArg Seat.game h.seat).trans hx.game
  · exact (congrArg Seat.role h.seat).trans hx.seated
  · exact (h.roles role).trans (hx.roles role)
  · exact (hkept own root h.planted).trans h.place
  · simp [withTrees, withMemory] at hid

lemma At.recalling (h : At u own course x root p) (views : Std.ExtTreeMap Int View)
    (moves : Std.ExtTreeMap Int Move) :
    At u own course (withMemory x { x.own.memory with views := views, moves := moves }) root p :=
  ⟨h.game, h.seated, h.roles, h.planted, h.place, h.grove, h.located⟩

/-- What is known of a play need not be kept. -/
lemma At.forget (h : At u own course x root p) : At u own (fun _ _ => False) x root p := by
  refine ⟨h.game, h.seated, h.roles, h.planted, h.place, ⟨h.grove.sound, fun role root hroot => ?_⟩, h.located⟩
  obtain ⟨q, hq⟩ := h.grove.root role root hroot
  exact ⟨q, { hq with holds := fun _ _ hfalse => hfalse.elim }⟩

lemma At.game? (h : At u own course x root p) : x.own.seat.game? label = .ok u.game := by
  rw [Seat.game?, h.game]

lemma At.role? (h : At u own course x root p) : x.own.seat.role? label = .ok own := by
  rw [Seat.role?, h.seated]

lemma At.root? (h : At u own course x root p) : x.own.memory.root? own = .ok root := by
  rw [MultiObserver.root?, h.planted]

/-- A node is made the root of the agent's own tree. -/
lemma reroot_run {a : Arena R} (h : detach k x.own.arena = .ok ⟨⟩ a) :
    (MultiObserver.reroot own k : Deliberation MultiObserver R ε Unit) x = .ok ⟨⟩
      (withTrees (withMemory x { x.own.memory with trees := x.own.memory.trees.insert own k }) ⟨a, x.host⟩) := by
  unfold MultiObserver.reroot
  rw [Action.bind_of_ok (remember_run _)]
  exact onArena_of_ok (x := withMemory x { x.own.memory with trees := x.own.memory.trees.insert own k }) h

lemma At.regrown {but : NodeId → Prop} {a : Arena R} {course' : Nat → State → Prop}
    (h : At u own course' x root p) (hplace : a.place? k = some q)
    (hgrove : Grove u but own course (x.own.memory.trees.insert own k) q.depth a) (host : ε) :
    Regrown u own course k q x
      (withTrees (withMemory x { x.own.memory with trees := x.own.memory.trees.insert own k }) ⟨a, host⟩) := by
  refine ⟨rfl, rfl, rfl, fun role => ?_, ?_, hplace, but, hgrove⟩
  · simp only [withTrees, withMemory, Std.ExtTreeMap.mem_insert, Std.compare_eq_iff_eq]
    refine ⟨fun hin => hin.elim (fun heq => ?_) id, .inr⟩
    rw [← heq, Std.ExtTreeMap.mem_iff_isSome_getElem?, h.planted]
    rfl
  · simp only [withTrees, withMemory, Std.ExtTreeMap.getElem?_insert_self]

/-- With a new root of the agent's own tree, the other trees catch up where they can. -/
lemma settle_ensures {never : Fault → Prop} {but : NodeId → Prop} {a a' : Arena R} {course' : Nat → State → Prop}
    (h : At u own course' x root p) (hdetach : detach k a = .ok ⟨⟩ a') (hplace : a'.place? k = some q)
    (hgrove : Grove u but own course (x.own.memory.trees.insert own k) q.depth a')
    (hcourse : ∀ s, course q.depth s → s ∈ q.belief.worlds) (host : ε) :
    Action.Ensures never (do
        MultiObserver.reroot own k
        for other in (← memorized).trees.keys do
          if other ≠ own then catchUp own other q.depth
        tidy : Deliberation MultiObserver R ε Unit) (withTrees x ⟨a, host⟩) fun _ z =>
      At u own course z k q ∧ z.own.memory.views = x.own.memory.views ∧
        z.own.memory.moves = x.own.memory.moves := by
  have hgrown := h.regrown hplace hgrove host
  refine Action.ensures_bind_of_ok (reroot_run hdetach) ?_
  refine Action.ensures_bind_of_ok memorized_run ?_
  refine (Action.ensures_forIn (I := fun _ z => Regrown u own course k q x z) ?_ hgrown).bind
    fun _ z hz => tidy_ensures h hz
  intro before other after z hl hz
  by_cases hne : other = own
  · refine Action.ensures_of_ok (t := z) ?_ ⟨rfl, hz⟩
    rw [if_neg (not_not.2 hne)]
    rfl
  · have hin : other ∈ z.own.memory.trees := by
      rw [hz.roles, ← hgrown.roles, ← Std.ExtTreeMap.mem_keys]
      exact hl ▸ List.mem_append_right _ List.mem_cons_self
    rw [if_pos hne]
    exact (catchUp_ensures hz hne hin hcourse).bind fun _ z hz => Action.ensures_of_ok rfl ⟨rfl, hz⟩

/-- What developing the agent's own tree comes to. -/
structure Developed (u : Upkeep) (own : Role) (p : Place) (ply : Int) (view : View) (k : NodeId)
    (q q' : Place) (x y : Hosted (TreeAgent MultiObserver R ε) ε) : Prop where
  meets : p.Meets u ply view (p.observedUpTo ply view) q
  limited : (q.recording (p.observedUpTo ply view)).Limited q'
  level : (q'.depth : Int) = ply
  views : y.own.memory.views = x.own.memory.views.insert ply view
  moves : y.own.memory.moves = x.own.memory.moves
  /-- The other trees keep up with a play whose state is among the worlds of the new root. -/
  keeps : ∀ root course, At u own course x root p → (∀ s, course q'.depth s → s ∈ q'.belief.worlds) →
    At u own course y k q'.detached

lemma At.develop_run [Dice ε] (h : At u own course x root p) (ply : Int) (view : View) :
    (MultiObserver.develop ply view : Deliberation MultiObserver R ε Unit) x = (do
      MultiObserver.reroot own (← onTrees (Arena.develop u.game root ply view))
      for other in (← memorized).trees.keys do
        if other ≠ own then catchUp own other ply
      tidy : Deliberation MultiObserver R ε Unit)
        (withMemory x { x.own.memory with views := x.own.memory.views.insert ply view }) := by
  let x₁ := withMemory x { x.own.memory with views := x.own.memory.views.insert ply view }
  have h₁ : At u own course x₁ root p := h.recalling _ _
  obtain ⟨v, hnode⟩ := node_run h₁.place
  refine (Action.bind_of_ok (remember_run _)).trans ((Action.bind_of_ok Hosted.read_run).trans ?_)
  refine (Action.bind_of_ok (Action.lift_of_ok h₁.role? x₁)).trans ?_
  refine (Action.bind_of_ok memorized_run).trans ((Action.bind_of_ok (Action.lift_of_ok h₁.root? x₁)).trans ?_)
  refine (Action.bind_of_ok (onArena_of_ok hnode)).trans ((Action.bind_of_ok Hosted.read_run).trans ?_)
  exact Action.bind_of_ok (Action.lift_of_ok h₁.game? x₁)

/-- Developing makes the node that is found for the ply the root of the agent's own tree. -/
theorem At.develop_cases [Dice ε] (h : At u own course x root p) (hstart : u.states u.game.start)
    (hply : (p.depth : Int) ≤ ply) (hle : ply ≤ 2147483647) (hforgets : ¬u.recalls) :
    (∃ y k q q', (MultiObserver.develop ply view : Deliberation MultiObserver R ε Unit) x = .ok ⟨⟩ y ∧
        Developed u own p ply view k q q' x y) ∨
      ∃ y f, (MultiObserver.develop ply view : Deliberation MultiObserver R ε Unit) x = .error f y ∧
        p.Unmet u ply view (p.observedUpTo ply view) f := by
  obtain ⟨p', hroot⟩ := h.grove.root own root h.planted
  obtain rfl : p = p' := Option.some.inj (h.place.symm.trans hroot.place)
  let x₁ := withMemory x { x.own.memory with views := x.own.memory.views.insert ply view }
  have h₁ : At u own course x₁ root p := h.recalling _ _
  rw [h.develop_run]
  rcases Arena.develop_cases view x₁.host h₁.grove.sound h₁.place hstart hply hle
    (fun hr => absurd hr hforgets) with
    ⟨a, host, k, q, q', hdevelop, hreached, hmeets, hlimited⟩ | ⟨a, f, hdevelop, hunmet⟩
  · have hinCharge := hmeets.inCharge_of_limited hlimited hreached.owner (hroot.inCharge rfl)
    have hsettles : ∀ (never : Fault → Prop) root' course', At u own course' x root' p →
        (∀ s, course' q'.depth s → s ∈ q'.belief.worlds) → Action.Ensures never (do
          MultiObserver.reroot own k
          for other in (← memorized).trees.keys do
            if other ≠ own then catchUp own other q'.depth
          tidy : Deliberation MultiObserver R ε Unit) (withTrees x₁ ⟨a, host⟩) fun _ z =>
        At u own course' z k q'.detached ∧ z.own.memory.views = x₁.own.memory.views ∧
          z.own.memory.moves = x₁.own.memory.moves := by
      intro never root' course' hx hcourse
      have hx₁ : At u own course' x₁ root' p := hx.recalling _ _
      obtain ⟨b, but, hdetach, hgrove, hplace⟩ := hx₁.grove.reached (hroot.owner ▸ hreached) hply hinCharge
      rw [← hreached.level, Int.toNat_natCast] at hgrove
      exact settle_ensures hx₁ hdetach hplace hgrove hcourse host
    have hforgotten : At u own (fun _ _ => False) x root p := h.forget
    obtain ⟨_, y, hrun, -, hviews, hmoves⟩ :=
      (hsettles (fun _ => True) root _ hforgotten fun _ hfalse => hfalse.elim).yields
    refine .inl ⟨y, k, q, q', ?_, hmeets, hlimited, hreached.level, hviews, hmoves, fun root' course' hx hcourse =>
      ((hsettles (fun _ => True) root' course' hx hcourse).of_ok hrun).1⟩
    rw [Action.bind_of_ok (onTrees_of_ok hdevelop), ← hreached.level]
    exact hrun
  · exact .inr ⟨_, f, Action.bind_of_error (onTrees_of_error hdevelop), hunmet⟩

/-- An agent that develops its trees does so for a ply that is not in the past of its own root. -/
theorem At.develop [Dice ε] (h : At u own course x root p) (hstart : u.states u.game.start)
    (hle : ply ≤ 2147483647) (hforgets : ¬u.recalls)
    (hrun : (MultiObserver.develop ply view : Deliberation MultiObserver R ε Unit) x = .ok ⟨⟩ y) :
    ∃ k q q', (p.depth : Int) ≤ ply ∧ Developed u own p ply view k q q' x y := by
  have hply : (p.depth : Int) ≤ ply := by
    rw [h.develop_run] at hrun
    obtain ⟨k, x₂, htrees, -⟩ := Action.bind_eq_ok.1 hrun
    obtain ⟨⟨a, host⟩, hdevelop, -⟩ := onTrees_eq_ok.1 htrees
    exact depth_le_of_develop h.place hdevelop
  rcases h.develop_cases hstart hply hle hforgets with ⟨y', k, q, q', hrun', hdeveloped⟩ | ⟨y', f, hrun', -⟩
  · cases hrun.symm.trans hrun'
    exact ⟨k, q, q', hply, hdeveloped⟩
  · cases hrun.symm.trans hrun'

/-- A root is followed by its only child if it has just one, and by itself otherwise. -/
lemma exists_follower {a : Arena R} (h : Rooted u a root p) (hp : p.InCharge) :
    ∃ k r, a.soleChild? root = .ok k ∧ a.place? k = some r ∧ (r = p ∨ p.SoleChild k) ∧
      r.role = p.role ∧ p.depth ≤ r.depth ∧ r.depth ≤ p.depth + 1 ∧ r.InCharge := by
  have hsound := h.sound.kept root p h.place (by simp)
  rcases Arena.soleChild?_cases h.place hsound.expanded with hself | ⟨k, hchild, hsole⟩
  · exact ⟨root, p, hself, h.place, .inl rfl, rfl, Nat.le_refl _, Nat.le_succ _, hp⟩
  · obtain ⟨e, he⟩ := List.exists_mem_of_ne_nil _ hsole.nonempty
    obtain ⟨c, hc, hof⟩ := hsound.child e he
    rw [hsole.child e he] at hc
    exact ⟨k, c, hchild, hc, .inr hsole, hof.role, by rw [hof.depth]; omega,
      Nat.le_of_eq hof.depth, (hsound.shows he hof).inCharge⟩

/-- Committing the agent to a move makes the only child of its own root the new root, if there is one. -/
theorem At.commit (h : At u own course x root p) (hmove : p.move = none ∨ p.move = some move ∨ ¬u.steady) :
    ∃ y q k r T, (MultiObserver.commit move : Deliberation MultiObserver R ε Unit) x = .ok ⟨⟩ y ∧
      At u own course y k r.detached ∧ (p.committed move).Trimmed q ∧ q.Sound u T root ∧ T k = some r ∧
      (r = q ∨ q.SoleChild k) ∧ r.depth ≤ p.depth + 1 ∧ y.own.memory.views = x.own.memory.views ∧
      y.own.memory.moves = x.own.memory.moves.insert p.depth move := by
  obtain ⟨p', hroot⟩ := h.grove.root own root h.planted
  obtain rfl : p = p' := Option.some.inj (h.place.symm.trans hroot.place)
  have hrooted : Rooted u x.own.arena root p := ⟨h.grove.sound, h.place, hroot.parent⟩
  obtain ⟨a, q, hrun, hrooted', htrimmed, hspares⟩ := hrooted.commit hmove
  obtain ⟨_, a₁, hcommit, htrim⟩ := Action.bind_eq_ok.1 hrun
  have hsound := hrooted'.sound.kept root q hrooted'.place (by simp)
  have hq : q.InCharge := (hroot.inCharge rfl).congr htrimmed.alike.standing htrimmed.alike.role
    fun w hw => htrimmed.alike.worlds ▸ hw
  have hrole : q.role = own := htrimmed.alike.role.trans hroot.owner
  have hdepth : q.depth = p.depth := htrimmed.alike.depth
  obtain ⟨k, r, hchild, hr, hcases, howner, hle, hlevel, hinCharge⟩ := exists_follower hrooted' hq
  rw [hrole] at howner
  rw [hdepth] at hle hlevel
  -- Committing changes the agent's own tree only, so the other roots are as they were.
  obtain ⟨b, hdetach, hgrove, hplaces⟩ := @detach_grove _ u (fun _ => False) own course r.depth
    x.own.memory.trees a k r hrooted'.sound
    (fun role root' hne hroot' => by
      rw [howner] at hne
      obtain ⟨p', hp'⟩ := h.grove.root role root' hroot'
      obtain ⟨p'', hp'', halike⟩ := hspares root' p' hp'.place (by rw [hp'.owner, hroot.owner]; exact hne)
      exact ⟨p'', hp'.congr hp'' halike hle (fun heq => absurd heq hne) fun _ _ hfalse => hfalse.elim⟩)
    hr (fun _ _ hfalse => hfalse.elim) (Nat.le_refl _) (fun hne => absurd howner hne)
    (fun hne => absurd howner hne) (fun _ => rfl) fun _ => hinCharge
  rw [howner] at hgrove
  have h₁ := h.recalling x.own.memory.views (x.own.memory.moves.insert p.depth move)
  have hplace : b.place? k = some r.detached := by rw [hplaces, Function.update_self]
  obtain ⟨v, hnode⟩ := node_run h.place
  have hcommits : Action.Ensures (fun _ => True)
      (MultiObserver.commit move : Deliberation MultiObserver R ε Unit) x fun _ y =>
        At u own course y k r.detached ∧ y.own.memory.views = x.own.memory.views ∧
          y.own.memory.moves = x.own.memory.moves.insert p.depth move := by
    unfold MultiObserver.commit
    refine Action.ensures_bind_of_ok Hosted.read_run ?_
    refine Action.ensures_bind_of_ok (Action.lift_of_ok h.role? x) ?_
    refine Action.ensures_bind_of_ok memorized_run ?_
    refine Action.ensures_bind_of_ok (Action.lift_of_ok h.root? x) ?_
    refine Action.ensures_bind_of_ok (onArena_of_ok hnode) ?_
    refine Action.ensures_bind_of_ok (remember_run _) ?_
    refine Action.ensures_bind_of_ok (onArena_of_ok hcommit) ?_
    refine Action.ensures_bind_of_ok (onArena_of_ok htrim) ?_
    refine Action.ensures_bind_of_ok (onArena_of_ok (Action.get_run _)) ?_
    refine Action.ensures_bind_of_ok (Action.lift_of_ok hchild _) ?_
    refine Action.ensures_bind_of_ok (reroot_run hdetach) ?_
    exact tidy_ensures h₁ (h₁.regrown hplace hgrove x.host)
  obtain ⟨_, y, hy, hat, hviews, hmoves⟩ := hcommits.yields
  exact ⟨y, q, k, r, a.place?, hy, hat, htrimmed, hsound, hr, hcases, hlevel, hviews, hmoves⟩

end MultiObserver

end GameSearch
