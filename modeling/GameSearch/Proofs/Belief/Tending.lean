import GameSearch.Proofs.Belief.Interruption
import GameSearch.Proofs.Belief.Rerooting
import GameSearch.Tree.Search

/-!
# Trees of beliefs as they are tended

`Tended` are the trees that come about when the nodes of a tree are expanded and its root is
committed, narrowed down, sampled and developed, in any order.  `Rooted` is what all of this keeps:
every place is sound, and nothing is above the root.
-/

namespace GameSearch

namespace Place

variable {p : Place}

/-- A place whose owner is committed to a move. -/
def committed (p : Place) (move : Move) : Place := { p with move := some move }

lemma accepts_eq {R : Type} (hbound : p.IsBound) (v : Option (Valuation R)) :
    (p.toNode v).accepts = p.accepts := by
  funext turn
  unfold Node.accepts Place.accepts
  cases hmove : p.move with
  | none => simp [toNode, hmove]
  | some move =>
    have hvisible : p.belief.isVisible = true := by simpa [IsBound, hmove] using hbound
    simp [toNode, hmove, hvisible]

end Place

namespace Arena

variable {R : Type} {u : Upkeep} {but : NodeId → Prop} {a a' : Arena R} {id root k : NodeId}
  {p q : Place} {move : Move} {states : StateSet} {ply : Int} {view : View} {w : State}

/-! ## Operations at a root -/

/-- Every place is sound, and one of them is a root. -/
structure Rooted (u : Upkeep) (a : Arena R) (root : NodeId) (p : Place) : Prop where
  sound : a.AllSound u
  place : a.place? root = some p
  parent : p.parent = none

lemma Rooted.isolated (h : Rooted u a root p) :
    Forest.Isolated (fun _ => False) root p.depth a.place? := by
  refine ⟨fun _ _ hfalse => hfalse.elim, fun x r hr _ e he heq => ?_⟩
  have hparent := h.sound.parent hr (by simp) he (heq ▸ h.place)
  rw [h.parent] at hparent
  cases hparent

/-- The owner of a root is committed to a move, and the tree is trimmed. -/
theorem Rooted.commit (h : Rooted u a root p)
    (hmove : p.move = none ∨ p.move = some move ∨ ¬u.steady) :
    ∃ a' q, (do Arena.commit root move; trim root : Action (Arena R) Unit) a = .ok ⟨⟩ a' ∧
      Rooted u a' root q ∧ (p.committed move).Trimmed q ∧
      Forest.Spares p.role a.place? a'.place? := by
  obtain ⟨v, hnode⟩ := node_run h.place
  obtain ⟨a₁, hrun₁, hsane₁, hplaces₁⟩ := change_yields (f := fun n => { n with move := some move })
    (g := fun p => p.committed move) (fun _ _ => rfl) h.sound.sane h.place
  have hself₁ : a₁.place? root = some (p.committed move) := by rw [hplaces₁, Function.update_self]
  obtain ⟨v₁, hnode₁⟩ := node_run hself₁
  have hfits := h.sound.kept root p h.place (by simp)
  have hknown := (h.sound.known root p h.place).congr (q := p.committed move) (fun _ hs => hs) rfl rfl
  have htouch := h.sound.touch h.place hsane₁ hplaces₁ rfl rfl hknown (fun _ he => he)
    (.inr h.isolated.leads)
  have hcut : Place.Untrimmed u p (p.committed move) := by
    refine ⟨rfl, rfl, rfl, rfl, rfl, rfl, rfl, rfl, fun _ hw => hw,
      fun w => ⟨fun hw => ⟨hw, hfits.expanded w hw⟩, And.left⟩, ?_⟩
    rcases hmove with hnone | hsame | hunsteady
    · exact .inl hnone
    · exact .inr (.inl hsame)
    · exact .inr (.inr ⟨hunsteady, by simp [Place.committed]⟩)
  have hkept : p.Sound u a₁.place? root := hfits.congr fun e he c hc =>
    ⟨c, by rw [hplaces₁, Function.update_of_ne (h.sound.child_ne h.place he), hc], .refl c⟩
  have hbut : ∀ x r, (fun _ : NodeId => False) x → a₁.place? x = some r →
      r.depth < (p.committed move).depth := fun _ _ hfalse => hfalse.elim
  obtain ⟨a₂, q, hrun₂, hsound₂, hself₂, htrimmed, hshrinks⟩ :=
    trimBelief_yields htouch hself₁ hcut hkept hbut
  refine ⟨a₂, q, ?_, ⟨hsound₂, hself₂, htrimmed.alike.parent.trans h.parent⟩, htrimmed, ?_⟩
  · have hcommit : Arena.commit root move a = .ok ⟨⟩ a₁ := by
      rw [Arena.commit, Action.bind_of_ok hnode]
      exact hrun₁
    have htrim : trim root a₁ = .ok ⟨⟩ a₂ := by
      rw [trim, Action.bind_of_ok hnode₁]
      exact hrun₂
    rw [Action.bind_of_ok hcommit, htrim]
  · have hspares₁ : Forest.Spares p.role a.place? a₁.place? := by
      rw [hplaces₁]
      exact .update (Forest.role_of_place h.place)
    exact hspares₁.trans (hshrinks.spares (Forest.role_of_place hself₁))

/-- The root is narrowed down. -/
theorem Rooted.restrict (h : Rooted u a root p) (hmeets : ∃ w ∈ p.belief.worlds, w ∈ states) :
    ∃ a' q, Arena.restrict root states a = .ok ⟨⟩ a' ∧ Rooted u a' root q ∧ p.Akin q ∧
      ∀ w, w ∈ q.belief.worlds ↔ w ∈ p.belief.worlds ∧ w ∈ states := by
  obtain ⟨a', q, hrun, hsound, hself, hakin, hworlds, -⟩ :=
    restrict_yields h.sound h.place h.isolated hmeets
  exact ⟨a', q, hrun, ⟨hsound, hself, hakin.parent.trans h.parent⟩, hakin, hworlds⟩

/-- The root is narrowed down to a sample. -/
theorem Rooted.setSample (h : Rooted u a root p) (hmeets : ∃ w ∈ p.belief.worlds, w ∈ states) :
    ∃ a' q, Arena.setSample root states a = .ok ⟨⟩ a' ∧ Rooted u a' root q ∧ p.sampled.Akin q ∧
      ∀ w, w ∈ q.belief.worlds ↔ w ∈ p.belief.worlds ∧ w ∈ states := by
  obtain ⟨a', q, hrun, hnarrowed, hworlds⟩ := setSample_yields h.sound h.place h.isolated hmeets
  exact ⟨a', q, hrun, ⟨hnarrowed.sound, hnarrowed.place, hnarrowed.akin.parent.trans h.parent⟩,
    hnarrowed.akin, hworlds⟩

/-- The tree has grown, the root is the same. -/
lemma Rooted.grown {worlds : State → Prop} (h : Rooted u a root p) {q' : Place}
    (hgrown : Grown u id q worlds a a' q') :
    ∃ p', Rooted u a' root p' ∧ p.Akin p' := by
  obtain ⟨p', hp', hextends, -⟩ := hgrown.grows root p h.place
  exact ⟨p', ⟨hgrown.sound, hp', hextends.parent.trans h.parent⟩, hextends.toAkin⟩

/-- The tree has grown below the root, the worlds of which are the same. -/
lemma Rooted.grown_below {worlds : State → Prop} {q' : Place} (h : Rooted u a root p)
    (hgrown : Grown u id q worlds a a' q') (hdepth : p.depth ≤ q.depth) :
    ∃ p', Rooted u a' root p' ∧ p.Alike p' := by
  obtain ⟨p', hp', hextends, -, hworlds⟩ := hgrown.grows root p h.place
  refine ⟨p', ⟨hgrown.sound, hp', hextends.parent.trans h.parent⟩, hextends.toAkin, ?_⟩
  rcases hworlds with ⟨-, hlt⟩ | hworlds
  · omega
  · exact hworlds

/-- The tree has grown where a node was expanded. -/
lemma AllSound.expand_eq_ok (h : a.AllSound u) (hrun : Arena.expand u.game id a = .ok ⟨⟩ a') :
    ∃ r r', a.place? id = some r ∧ Grown u id r (· ∈ r.belief.worlds) a a' r' := by
  obtain ⟨n, a₁, hnode, hrun⟩ := Action.bind_eq_ok.1 hrun
  obtain ⟨rfl, r, v, hr, rfl⟩ := h.sane.node_eq_ok hnode
  obtain ⟨a₂, r', hexpand, hgrown, -⟩ := expandBelief_yields h hr
  have hexpand' : expandBelief u.game id a₁ = .ok ⟨⟩ a' := hrun
  rw [hexpand] at hexpand'
  cases hexpand'
  exact ⟨r, r', hr, hgrown⟩

lemma Rooted.expand (h : Rooted u a root p) (hrun : Arena.expand u.game id a = .ok ⟨⟩ a') :
    ∃ q, Rooted u a' root q ∧ p.Akin q := by
  obtain ⟨r, r', -, hgrown⟩ := AllSound.expand_eq_ok h.sound hrun
  exact h.grown hgrown

lemma Rooted.expand_below (h : Rooted u a root p) (hleads : a.Leads root id)
    (hrun : Arena.expand u.game id a = .ok ⟨⟩ a') : ∃ q, Rooted u a' root q ∧ p.Alike q := by
  obtain ⟨r, r', hr, hgrown⟩ := AllSound.expand_eq_ok h.sound hrun
  obtain ⟨r'', hr'', hdepth, -⟩ := h.sound.leads h.place hleads
  rw [hr, Option.some.injEq] at hr''
  exact h.grown_below hgrown (hr''.symm ▸ hdepth)

/-- Only the worlds of a node are expanded. -/
lemma AllSound.expandWorld_eq_ok (h : a.AllSound u)
    (hrun : Arena.expandWorld u.game id w a = .ok ⟨⟩ a') :
    ∃ r, a.place? id = some r ∧ w ∈ r.belief.worlds := by
  obtain ⟨b, a₁, hbelief, hrest⟩ := Action.bind_eq_ok.1 hrun
  obtain ⟨rfl, r, hr, rfl⟩ := h.sane.belief_eq_ok hbelief
  refine ⟨r, hr, ?_⟩
  by_contra hw
  have hexpanded : r.belief.expanded.contains w = false :=
    Bool.eq_false_iff.2 fun hin => hw ((h.kept id r hr (by simp)).expanded w hin)
  have hworlds : r.belief.worlds.contains w = false := Bool.eq_false_iff.2 hw
  simp only [hexpanded, hworlds] at hrest
  cases hrest

/-- A world of a node of the tree is expanded. -/
lemma Rooted.expandWorld (h : Rooted u a root p)
    (hrun : Arena.expandWorld u.game id w a = .ok ⟨⟩ a') : ∃ q, Rooted u a' root q ∧ p.Akin q := by
  obtain ⟨r, hr, hw⟩ := AllSound.expandWorld_eq_ok h.sound hrun
  obtain ⟨a₂, r', hexpand, hgrown⟩ := expandWorld_yields h.sound hr hw
  rw [hexpand] at hrun
  cases hrun
  exact h.grown hgrown

/-- A world of a node below the root is expanded, and so is one of the root. -/
lemma Rooted.expandWorld_below (h : Rooted u a root p) (hleads : a.Leads root id)
    (hrun : Arena.expandWorld u.game id w a = .ok ⟨⟩ a') :
    ∃ q, Rooted u a' root q ∧ p.Alike q ∧ q.Begun := by
  obtain ⟨r, hr, hw⟩ := AllSound.expandWorld_eq_ok h.sound hrun
  obtain ⟨r', hr', hdepth, -⟩ := h.sound.leads h.place hleads
  rw [hr, Option.some.injEq] at hr'
  subst hr'
  obtain ⟨a₂, r', hexpand, hgrown⟩ := expandWorld_yields h.sound hr hw
  rw [hexpand] at hrun
  cases hrun
  obtain ⟨q, hq, halike⟩ := h.grown_below hgrown hdepth
  have hleads' : a'.Leads root id := hleads.extends h.sound.sane fun x c hc =>
    (hgrown.grows x c hc).imp fun _ hc' => ⟨hc'.1, hc'.2.1⟩
  exact ⟨q, hq, halike, hgrown.sound.begun_above hleads' hq.place hgrown.place
    ⟨w, (hgrown.expanded w).2 (.inr rfl)⟩⟩

/-- In the tree of a root all owners are bound by their moves if that of the root is. -/
lemma Rooted.isBound (h : Rooted u a root p) (hbound : p.IsBound) (hleads : a.Leads root id)
    (hq : a.place? id = some q) : q.IsBound := by
  cases hleads with
  | refl =>
    rw [h.place, Option.some.injEq] at hq
    exact hq ▸ hbound
  | @step x e hx he =>
    obtain ⟨r, hr, -⟩ := h.sound.leads h.place hx
    rw [edgesOf_of_place? hr] at he
    obtain ⟨c, hc, hof⟩ := (h.sound.kept x r hr (by simp)).child e he
    rw [hq, Option.some.injEq] at hc
    exact .inl (hc ▸ hof.move)

/-- A node that follows a play becomes the new root. -/
lemma Rooted.develop {ε : Type} [Dice ε] {host host' : ε} (h : Rooted u a root p)
    (hforgets : u.recalls → False) (hstart : u.states u.game.start) (hbound : p.IsBound)
    (hleads : a.Leads root id) (hle : ply ≤ 2147483647)
    (hdevelop : Arena.develop u.game id ply view ⟨a, host⟩ = .ok k ⟨a', host'⟩)
    {a'' : Arena R} (hreroot : Arena.reroot k a' = .ok ⟨⟩ a'') :
    ∃ q, Rooted u a'' k q ∧ q.IsBound := by
  obtain ⟨r, hr, -⟩ := h.sound.leads h.place hleads
  have hply : (r.depth : Int) ≤ ply := depth_le_of_develop hr hdevelop
  rcases develop_cases view host h.sound hr hstart hply hle
    (fun hr => (hforgets hr).elim) with
    ⟨a₁, host₁, k, q, q', hrun, hreached, hmeets, hlimited⟩ | ⟨a₁, f, hrun, -⟩
  · rw [hdevelop] at hrun
    cases hrun
    obtain ⟨a₂, hrun₂, hsound, hself⟩ := hreached.sound.reroot hreached.place
    rw [hreroot] at hrun₂
    cases hrun₂
    refine ⟨q'.detached, ⟨hsound, hself, rfl⟩, ?_⟩
    have hq := hmeets.isBound (h.isBound hbound hleads hr)
    rw [Place.IsBound, ← show (q.recording (r.observedUpTo ply view)).move = q.move from rfl,
      ← hlimited.move] at hq
    exact hq.imp_right fun hvisible => (Place.isVisible_eq_of_standing hlimited.standing).trans hvisible
  · rw [hdevelop] at hrun
    cases hrun

/-! ## Trees as they are tended -/

/-- What is done to the trees of beliefs of some kind. -/
structure Care (R : Type) where
  /-- The roots that are planted: the owner, the worlds, whether the owner is in control, and what it sees. -/
  plants : Role → StateSet → Bool → View → Prop
  /-- The nodes that are expanded in the tree of a root. -/
  expands : Arena R → (root id : NodeId) → Prop
  /-- The moves that the owner of a root is committed to. -/
  commits : Node R → Move → Prop
  /-- Whether expansions may be broken off. -/
  fails : Prop

/-- The trees that come about from a root by expanding nodes, by committing the owner of the root to moves, by
narrowing the root down, by making a node that follows a play the new root, and by expansions that are broken off
before anything has been added for the world in question. -/
inductive Raised (game : Game) (possible : State → Prop) (care : Care R) : Arena R → NodeId → Prop
  | plant {a : Arena R} {root : NodeId} {depth : Int} {role : Role} {worlds : StateSet}
      {isComplete inControl : Bool} {view : View} :
      (∀ s ∈ worlds, possible s) → care.plants role worlds inControl view →
      add (Node.belief? none depth role worlds isComplete (Node.standingOf inControl view)) ∅ = .ok root a →
      Raised game possible care a root
  | expand {a a' : Arena R} {root id : NodeId} :
      Raised game possible care a root → care.expands a root id → Arena.expand game id a = .ok ⟨⟩ a' →
      Raised game possible care a' root
  | expandWorld {a a' : Arena R} {root id : NodeId} {world : State} :
      Raised game possible care a root → care.expands a root id → Arena.expandWorld game id world a = .ok ⟨⟩ a' →
      Raised game possible care a' root
  | commit {a a' : Arena R} {root : NodeId} {n : Node R} {move : Move} :
      Raised game possible care a root → a.find? root = some n → n.kind = .visible → care.commits n move →
      (do Arena.commit root move; trim root : Action (Arena R) Unit) a = .ok ⟨⟩ a' →
      Raised game possible care a' root
  | restrict {a a' : Arena R} {root : NodeId} {allowed : StateSet} :
      Raised game possible care a root → Arena.restrict root allowed a = .ok ⟨⟩ a' →
      Raised game possible care a' root
  | setSample {a a' : Arena R} {root : NodeId} {sample : StateSet} :
      Raised game possible care a root → Arena.setSample root sample a = .ok ⟨⟩ a' →
      Raised game possible care a' root
  | develop {ε : Type} [Dice ε] {a a' a'' : Arena R} {host host' : ε} {root id k : NodeId} {ply : Int}
      {view : View} :
      Raised game possible care a root → a.Leads root id → ply ≤ 2147483647 →
      Arena.develop game id ply view ⟨a, host⟩ = .ok k ⟨a', host'⟩ → Arena.reroot k a' = .ok ⟨⟩ a'' →
      Raised game possible care a'' k
  | fail {a a' : Arena R} {root id : NodeId} {n : Node R} {ask : State → Inquiry} {e : Expansion} {f : Fault} :
      Raised game possible care a root → care.fails → a.Leads root id → a.find? id = some n →
      (∀ w, (ask w).Falters game) → (∀ w, (ask w).FailsEarly n.role n.accepts w) →
      e.runBy ask id a = .error f a' → Raised game possible care a' root

/-- The trees of which each node is committed to one move at most. -/
def Tended (game : Game) (possible : State → Prop) : Arena R → NodeId → Prop :=
  Raised game possible
    { plants := fun _ _ _ _ => True
      expands := fun _ _ _ => True
      commits := fun n move => n.move = none ∨ n.move = some move
      fails := False }

variable {game : Game} {possible : State → Prop}

lemma belief?_of_add {parent : Option Int} {depth : Int} {role : Role} {worlds : StateSet}
    {isComplete : Bool} {standing : Standing}
    (hrun : add (Node.belief? parent depth role worlds isComplete standing) a = .ok id a') :
    0 ≤ depth ∧ worlds.isEmpty = false := by
  by_cases hdepth : depth < 0
  · have herror : (Node.belief? parent depth role worlds isComplete standing :
        Except Fault (Node R)) = .error (.negativeDepth depth) := by
      simp [Node.belief?, Node.depth?, hdepth, bind, Except.bind]
    rw [herror, add_error] at hrun
    cases hrun
  · cases hne : worlds.isEmpty with
    | false => exact ⟨Int.not_lt.1 hdepth, rfl⟩
    | true =>
      have herror : (Node.belief? parent depth role worlds isComplete standing :
          Except Fault (Node R)) = .error .noWorlds := by
        simp [Node.belief?, Node.depth?, hdepth, hne, bind, Except.bind, throw, throwThe,
          MonadExceptOf.throw]
      rw [herror, add_error] at hrun
      cases hrun

/-- What is planted is a root. -/
lemma rooted_of_plant {depth : Int} {role : Role} {worlds : StateSet} {isComplete : Bool}
    {standing : Standing} (hworlds : ∀ s ∈ worlds, u.states s)
    (hrun : add (Node.belief? none depth role worlds isComplete standing) (∅ : Arena R) = .ok root a) :
    ∃ hne, Rooted u a root (.root depth.toNat role worlds isComplete standing hne) := by
  obtain ⟨hdepth, hne⟩ := belief?_of_add hrun
  obtain ⟨k, a', hadd, -, hsound, hplaces⟩ :=
    @addRoot_yields _ u (fun _ => False) ∅ _ _ _ _ _
    sound_empty hdepth hne hworlds
  rw [hrun] at hadd
  cases hadd
  exact ⟨hne, hsound, by rw [hplaces, Function.update_self], rfl⟩

/-- A tree has a root, and the owner of the root is bound by its move. -/
def Bound (u : Upkeep) (a : Arena R) (root : NodeId) : Prop := ∃ p, Rooted u a root p ∧ p.IsBound

lemma Bound.plant {depth : Int} {role : Role} {worlds : StateSet} {isComplete : Bool}
    {standing : Standing} (hworlds : ∀ s ∈ worlds, u.states s)
    (hrun : add (Node.belief? none depth role worlds isComplete standing) (∅ : Arena R) = .ok root a) :
    Bound u a root := by
  obtain ⟨hne, hrooted⟩ := rooted_of_plant hworlds hrun
  exact ⟨_, hrooted, .inl rfl⟩

lemma Bound.expand (h : Bound u a root) (hrun : Arena.expand u.game id a = .ok ⟨⟩ a') : Bound u a' root := by
  obtain ⟨p, hrooted, hbound⟩ := h
  obtain ⟨q, hrooted', hakin⟩ := hrooted.expand hrun
  exact ⟨q, hrooted', hakin.isBound hbound⟩

lemma Bound.expandWorld (h : Bound u a root) (hrun : Arena.expandWorld u.game id w a = .ok ⟨⟩ a') :
    Bound u a' root := by
  obtain ⟨p, hrooted, hbound⟩ := h
  obtain ⟨q, hrooted', hakin⟩ := hrooted.expandWorld hrun
  exact ⟨q, hrooted', hakin.isBound hbound⟩

lemma Bound.commit {n : Node R} (h : Bound u a root) (hn : a.find? root = some n) (hvisible : n.kind = .visible)
    (hmove : n.move = none ∨ n.move = some move)
    (hrun : (do Arena.commit root move; trim root : Action (Arena R) Unit) a = .ok ⟨⟩ a') : Bound u a' root := by
  obtain ⟨p, hrooted, hbound⟩ := h
  have hn' : n.place? = some p := by rw [← place?_of_find? hn, hrooted.place]
  rw [Node.place?_eq_some.1 hn', Place.toNode_move] at hmove
  obtain ⟨a₁, q, hrun', hrooted', htrimmed, -⟩ := hrooted.commit (hmove.imp_right .inl)
  rw [hrun] at hrun'
  cases hrun'
  refine ⟨q, hrooted', .inr ?_⟩
  rw [Node.place?_eq_some.1 hn', Node.kind_toNode] at hvisible
  cases hv : p.belief.isVisible with
  | false => simp [hv] at hvisible
  | true => exact (Place.isVisible_eq_of_standing htrimmed.alike.standing).trans hv

/-- A belief is not narrowed down to nothing. -/
lemma meets_of_restrict {allowed : StateSet} (hp : a.place? id = some p)
    (hrun : restrict id allowed a = .ok ⟨⟩ a') : ∃ w ∈ p.belief.worlds, w ∈ allowed := by
  change restrictWithin (a.slots.size + 1) id allowed a = _ at hrun
  rw [restrictWithin, Action.bind_of_ok (belief_run hp)] at hrun
  by_cases hne : (p.belief.worlds.filter allowed.contains).isEmpty = false
  · obtain ⟨w, hw⟩ := StateSet.isEmpty_eq_false_iff.1 hne
    exact ⟨w, StateSet.mem_filter_contains.1 hw⟩
  · rw [dif_neg hne] at hrun
    cases hrun

lemma Rooted.meets_of_setSample {sample : StateSet} (h : Rooted u a root p)
    (hrun : Arena.setSample root sample a = .ok ⟨⟩ a') : ∃ w ∈ p.belief.worlds, w ∈ sample := by
  obtain ⟨a₁, hmark, -, hsampled, -⟩ := markSampled_yields h.sound h.place h.isolated
  rw [Arena.setSample, Action.bind_of_ok hmark] at hrun
  exact (meets_of_restrict hsampled hrun : ∃ w ∈ p.sampled.belief.worlds, w ∈ sample)

lemma Bound.restrict (h : Bound u a root) (hrun : Arena.restrict root states a = .ok ⟨⟩ a') : Bound u a' root := by
  obtain ⟨p, hrooted, hbound⟩ := h
  obtain ⟨a₁, q, hrun', hrooted', hakin, -⟩ := hrooted.restrict (meets_of_restrict hrooted.place hrun)
  rw [hrun] at hrun'
  cases hrun'
  exact ⟨q, hrooted', hakin.isBound hbound⟩

lemma Bound.setSample (h : Bound u a root) (hrun : Arena.setSample root states a = .ok ⟨⟩ a') : Bound u a' root := by
  obtain ⟨p, hrooted, hbound⟩ := h
  obtain ⟨a₁, q, hrun', hrooted', hakin, -⟩ := hrooted.setSample (hrooted.meets_of_setSample hrun)
  rw [hrun] at hrun'
  cases hrun'
  exact ⟨q, hrooted', hakin.isBound hbound⟩

lemma Bound.develop {ε : Type} [Dice ε] {host host' : ε} {a'' : Arena R} (h : Bound u a root)
    (hforgets : u.recalls → False) (hstart : u.states u.game.start) (hleads : a.Leads root id) (hle : ply ≤ 2147483647)
    (hdevelop : Arena.develop u.game id ply view ⟨a, host⟩ = .ok k ⟨a', host'⟩)
    (hreroot : Arena.reroot k a' = .ok ⟨⟩ a'') : Bound u a'' k := by
  obtain ⟨p, hrooted, hbound⟩ := h
  exact hrooted.develop hforgets hstart hbound hleads hle hdevelop hreroot

/-- In the tree of a root, all nodes are at places whose owners are bound by their moves. -/
lemma Bound.node (h : Bound u a root) (hleads : a.Leads root id) :
    ∃ q v, a.place? id = some q ∧ a.find? id = some (q.toNode v) ∧ q.IsBound := by
  obtain ⟨p, hrooted, hbound⟩ := h
  obtain ⟨q, hq, -⟩ := hrooted.sound.leads hrooted.place hleads
  obtain ⟨v, hv⟩ := find?_of_place? hq
  exact ⟨q, v, hq, hv, hrooted.isBound hbound hleads hq⟩

/-- Nothing is lost by an expansion that was broken off early. -/
lemma Bound.fail {n : Node R} {ask : State → Inquiry} {e : Expansion} {f : Fault} (h : Bound u a root)
    (hleads : a.Leads root id) (hn : a.find? id = some n) (hfalters : ∀ w, (ask w).Falters u.game)
    (hearly : ∀ w, (ask w).FailsEarly n.role n.accepts w) (hrun : e.runBy ask id a = .error f a') :
    Bound u a' root := by
  obtain ⟨q, v, hq, hv, hqbound⟩ := h.node hleads
  rw [hn, Option.some.injEq] at hv
  subst hv
  rw [Place.accepts_eq hqbound, Place.toNode_role] at hearly
  obtain ⟨p, hrooted, hbound⟩ := h
  by_cases he : e.Within q.belief
  · obtain ⟨w, worlds, before, r, hstops, hhalted, -⟩ := Expansion.runBy_eq_error hrooted.sound hq he hfalters hrun
    have hakin := (hhalted.extended hq).1.toAkin
    have hgrown := hhalted.grown fun step hstep => (hakin.accepts step.1).trans (hearly w before f hstops step hstep)
    obtain ⟨p', hrooted', hakin'⟩ := hrooted.grown hgrown
    exact ⟨p', hrooted', hakin'.isBound hbound⟩
  · rw [Expansion.runBy_eq_error_of_not_within hrooted.sound hq he hrun]
    exact ⟨p, hrooted, hbound⟩

/-- In a tree in which each node is committed to one move at most, every place is sound, and the owner of the root
is bound by its move. -/
theorem Raised.bound {care : Care R} (hcommits : ∀ n move, care.commits n move → n.move = none ∨ n.move = some move)
    (hgame : game.AnswersOn possible) (hstart : possible game.start) (h : Raised game possible care a root) :
    Bound ⟨game, possible, hgame, True, False⟩ a root := by
  induction h with
  | plant hworlds _ hrun => exact .plant hworlds hrun
  | expand _ _ hrun ih => exact ih.expand hrun
  | expandWorld _ _ hrun ih => exact ih.expandWorld hrun
  | commit _ hn hvisible hmove hrun ih => exact ih.commit hn hvisible (hcommits _ _ hmove) hrun
  | restrict _ hrun ih => exact ih.restrict hrun
  | setSample _ hrun ih => exact ih.setSample hrun
  | develop _ hleads hle hdevelop hreroot ih =>
    exact ih.develop (fun hfalse => hfalse.elim) hstart hleads hle hdevelop hreroot
  | fail _ _ hleads hn hfalters hearly hrun ih => exact ih.fail hleads hn hfalters hearly hrun

theorem Tended.rooted (hgame : game.AnswersOn possible) (hstart : possible game.start)
    (h : Tended game possible a root) :
    ∃ p, Rooted ⟨game, possible, hgame, True, False⟩ a root p ∧ p.IsBound :=
  Raised.bound (fun _ _ hmove => hmove) hgame hstart h

end Arena

end GameSearch
