import GameSearch.Proofs.Belief.LastStates

/-!
# Observing a view

What happens to a belief when its owner is seen to have a view: the other worlds are dropped, with
what follows from them.  The places above the belief are then no longer sound, so they are exceptions
until the belief is made a root.  New roots for beliefs are treated here as well.
-/

namespace GameSearch

namespace Forest

variable {T T' T'' : Forest} {role : Role} {id : NodeId} {i : Nat}

/-- The places of other roles stay as those above them rely on. -/
def Spares (role : Role) (T T' : Forest) : Prop :=
  ∀ x c, T x = some c → c.role ≠ role → ∃ c', T' x = some c' ∧ c.Alike c'

lemma role_of_place {p : Place} (hp : T id = some p) : ∀ q, T id = some q → q.role = p.role := fun _ hq =>
  congrArg Place.role (Option.some.inj (hq.symm.trans hp))

lemma Spares.refl : Spares role T T := fun _ c hc _ => ⟨c, hc, .refl c⟩

lemma Spares.trans (h : Spares role T T') (h' : Spares role T' T'') : Spares role T T'' := by
  intro x c hc hrole
  obtain ⟨c', hc', hlike⟩ := h x c hc hrole
  obtain ⟨c'', hc'', hlike'⟩ := h' x c' hc' (by rwa [hlike.role])
  exact ⟨c'', hc'', hlike.trans hlike'⟩

lemma Spares.update {p' : Place} (hp : ∀ p, T id = some p → p.role = role) :
    Spares role T (Function.update T id (some p')) := by
  intro x c hc hrole
  have hx : x ≠ id := by
    rintro rfl
    exact hrole (hp c hc)
  exact ⟨c, by rw [Function.update_of_ne hx, hc], .refl c⟩

lemma Grows.spares {touched : NodeId → Prop} (h : Grows touched role i T T') : Spares role T T' := by
  intro x c hc hrole
  obtain ⟨c', hc', hextends, -, hworlds⟩ := h x c hc
  rcases hworlds with ⟨heq, -⟩ | hworlds
  · exact absurd heq hrole
  · exact ⟨c', hc', hextends.toAkin, hworlds⟩

lemma Shrinks.spares (h : Shrinks id role i T T') (hp : ∀ p, T id = some p → p.role = role) :
    Spares role T T' := by
  intro x c hc hrole
  obtain ⟨c', hc', -, -, hcase⟩ := (h x).2 c hc
  rcases hcase with rfl | rfl | ⟨heq, -⟩
  · exact ⟨c', hc', .refl c'⟩
  · exact absurd (hp c hc) hrole
  · exact absurd heq hrole

lemma Samples.spares (h : Samples id role i T T') (hp : ∀ p, T id = some p → p.role = role) :
    Spares role T T' := by
  intro x c hc hrole
  rcases (h x).2 c hc with hsame | ⟨-, rfl | ⟨heq, -⟩⟩
  · exact ⟨c, hsame, .refl c⟩
  · exact absurd (hp c hc) hrole
  · exact absurd heq hrole

lemma Thins.trans (h : Thins T T') (h' : Thins T' T'') : Thins T T'' := by
  intro x p'' hp''
  obtain ⟨p', hp', hdepth', hrole', hedges'⟩ := h' x p'' hp''
  obtain ⟨p, hp, hdepth, hrole, hedges⟩ := h x p' hp'
  exact ⟨p, hp, hdepth'.trans hdepth, hrole'.trans hrole, fun e he => hedges e (hedges' e he)⟩

lemma Thins.update {p p' : Place} (hp : T id = some p) (hdepth : p'.depth = p.depth)
    (hrole : p'.role = p.role) (hedges : ∀ e ∈ p'.edgeList, e ∈ p.edgeList) :
    Thins T (Function.update T id (some p')) := by
  intro x q hq
  by_cases hx : x = id
  · rw [hx, Function.update_self, Option.some.injEq] at hq
    rw [hx, ← hq]
    exact ⟨p, hp, hdepth, hrole, hedges⟩
  · rw [Function.update_of_ne hx] at hq
    exact ⟨q, hq, rfl, rfl, fun _ he => he⟩

end Forest

namespace Place

variable {u : Upkeep} {id : NodeId} {p q : Place} {T : Forest} {view : View}

/-- A place whose owner has the given view. -/
def observe (p : Place) (view : View) : Place := { p with belief := p.belief.observe view }

lemma observe_cases (p : Place) (view : View) :
    (∃ v, p.belief.standing = .visible v ∧
      p.observe view = { p with belief := { p.belief with standing := .visible (some view) } }) ∨
      p.belief.standing = .hidden ∧ p.observe view = p := by
  unfold observe Belief.observe
  cases hstanding : p.belief.standing with
  | visible v => exact .inl ⟨v, rfl, rfl⟩
  | hidden => exact .inr ⟨rfl, rfl⟩

/-- To have a view that is kept already changes nothing, nor does it where views are not kept. -/
lemma observe_eq_self (hstores : p.belief.isVisible = true → p.belief.standing = .visible (some view)) :
    p.observe view = p := by
  rcases p.observe_cases view with ⟨v, hstanding, heq⟩ | ⟨-, heq⟩
  · rw [heq, ← hstores (by rw [Belief.isVisible, hstanding])]
  · exact heq

@[simp] lemma observe_worlds : (p.observe view).belief.worlds = p.belief.worlds := by
  rcases p.observe_cases view with ⟨v, -, heq⟩ | ⟨-, heq⟩ <;> rw [heq]

@[simp] lemma observe_isComplete : (p.observe view).belief.isComplete = p.belief.isComplete := by
  rcases p.observe_cases view with ⟨v, -, heq⟩ | ⟨-, heq⟩ <;> rw [heq]

@[simp] lemma observe_history : (p.observe view).belief.history = p.belief.history := by
  rcases p.observe_cases view with ⟨v, -, heq⟩ | ⟨-, heq⟩ <;> rw [heq]

@[simp] lemma observe_isVisible : (p.observe view).belief.isVisible = p.belief.isVisible := by
  rcases p.observe_cases view with ⟨v, hstanding, heq⟩ | ⟨-, heq⟩
  · rw [heq]
    simp [Belief.isVisible, hstanding]
  · rw [heq]

lemma Sound.observe (h : p.Sound u T id) (view : View) : (p.observe view).Sound u T id := by
  rcases p.observe_cases view with ⟨v, hstanding, heq⟩ | ⟨-, heq⟩
  · have hvisible : p.belief.isVisible = true := by simp [Belief.isVisible, hstanding]
    have hkeyOf : ∀ w turn, (p.observe view).keyOf w turn = p.keyOf w turn := by
      intro w turn
      rw [heq]
      simp [keyOf, Belief.isVisible, hstanding]
    have haccepts : ∀ turn, (p.observe view).accepts turn = p.accepts turn := by
      intro turn
      rw [heq]
      simp [accepts, Belief.isVisible, hstanding]
    have hlist : (p.observe view).edgeList = p.edgeList := by rw [heq]; rfl
    refine ⟨?_, ?_, ?_, ?_, ?_, ?_, ?_, ?_⟩
    · intro e he
      obtain ⟨w, hw⟩ := h.keyed e (hlist ▸ he)
      exact ⟨w, by rw [hw, hkeyOf]⟩
    · rw [heq]
      exact h.expanded
    · rw [heq]
      exact h.pristine
    · intro w
      simp only [haccepts]
      rw [heq]
      rcases h.out w with hall | ⟨⟨hunsteady, hmove, -⟩, hrest⟩
      · exact .inl hall
      · exact .inr ⟨⟨hunsteady, hmove, rfl⟩, hrest⟩
    · rw [heq]
      exact h.bucket
    · rw [heq]
      exact h.used
    · rw [heq]
      exact h.same
    · intro e he
      obtain ⟨c, hc, hof⟩ := h.child e (hlist ▸ he)
      refine ⟨c, hc, ?_⟩
      rw [heq]
      exact ⟨hof.parent, hof.depth, hof.role, hof.move, hof.isComplete, hof.standing, hof.worlds,
        hof.history⟩
  · rw [heq]
    exact h

end Place

namespace Arena

variable {R : Type} {u : Upkeep} {but : NodeId → Prop} {a a' : Arena R} {id : NodeId}
  {p q c : Place} {view : View} {states : StateSet}

/-- A place that was narrowed: it is sound, and so is all else but what is above it. -/
structure Narrowed (u : Upkeep) (but : NodeId → Prop) (id : NodeId) (p q : Place) (a a' : Arena R) :
    Prop where
  sound : a'.Sound u but
  place : a'.place? id = some q
  akin : p.Akin q
  thins : Forest.Thins a.place? a'.place?
  spares : Forest.Spares p.role a.place? a'.place?

/-- The owner of a belief is seen to have a view, which only some of the worlds show. -/
theorem observeAt_yields (view : View) (h : a.Sound u but) (hp : a.place? id = some p)
    (hisolated : Forest.Isolated but id p.depth a.place?)
    (hmeets : ∃ w ∈ p.belief.worlds, w ∈ states) :
    ∃ a' q, observeAt id view states a = .ok ⟨⟩ a' ∧ Narrowed u but id (p.observe view) q a a' ∧
      ∀ w, w ∈ q.belief.worlds ↔ w ∈ p.belief.worlds ∧ w ∈ states := by
  have hid := hisolated.not_but hp
  obtain ⟨a₁, hrun₁, hsane₁, hplaces₁⟩ := changeBelief_yields (·.observe view) h.sane hp
  have hself₁ : a₁.place? id = some (p.observe view) := by rw [hplaces₁, Function.update_self]; rfl
  have hthins₁ : Forest.Thins a.place? a₁.place? := by
    rw [hplaces₁]
    exact .update hp rfl rfl fun _ he => he
  have hspares₁ : Forest.Spares p.role a.place? a₁.place? := by
    rw [hplaces₁]
    exact .update (Forest.role_of_place hp)
  have hsound₁ : a₁.Sound u but := by
    have hknown : (p.observe view).Known u :=
      (h.known id p hp).congr (fun s hs => by rwa [← Place.observe_worlds]) rfl Place.observe_history
    have hkept : p.Sound u a₁.place? id := (h.kept id p hp hid).congr fun e he c hc =>
      ⟨c, by rw [hplaces₁, Function.update_of_ne (h.child_ne hp he), hc], .refl c⟩
    exact Sound.settle (h.touch hp hsane₁ hplaces₁ rfl rfl hknown (fun _ he => he)
      (.inr hisolated.leads)) hself₁ (hkept.observe view)
  obtain ⟨a₂, q₂, hrun₂, hsound₂, hself₂, hakin₂, hworlds₂, hshrinks₂⟩ :=
    restrict_yields hsound₁ hself₁ (hisolated.congr hthins₁)
      (show ∃ w ∈ (p.observe view).belief.worlds, w ∈ states by simpa using hmeets)
  have hisolated₂ : Forest.Isolated but id q₂.depth a₂.place? := by
    rw [hakin₂.depth]
    exact (hisolated.congr hthins₁).congr hshrinks₂.thins
  have hsound := hsound₂.kept id q₂ hself₂ hid
  obtain ⟨a₃, q₃, hrun₃, hsound₃, hself₃, htrimmed₃, hshrinks₃⟩ := trimBelief_yields
    (hsound₂.mono fun x hx => .inl hx) hself₂ (.refl hsound.expanded) hsound hisolated₂.above
  refine ⟨a₃, q₃, ?_, ⟨hsound₃, hself₃, hakin₂.trans htrimmed₃.alike.toAkin, ?_, ?_⟩, fun w => ?_⟩
  · unfold observeAt
    rw [Action.bind_of_ok hrun₁, Action.bind_of_ok hrun₂]
    exact hrun₃
  · exact (hthins₁.trans hshrinks₂.thins).trans hshrinks₃.thins
  · have hspares₃ := hshrinks₃.spares (Forest.role_of_place hself₂)
    rw [hakin₂.role] at hspares₃
    exact (hspares₁.trans (hshrinks₂.spares (Forest.role_of_place hself₁))).trans hspares₃
  · rw [htrimmed₃.alike.worlds, hworlds₂, Place.observe_worlds]

/-- A belief is narrowed down to a sample of its worlds. -/
theorem setSample_yields (h : a.Sound u but) (hp : a.place? id = some p)
    (hisolated : Forest.Isolated but id p.depth a.place?)
    (hmeets : ∃ w ∈ p.belief.worlds, w ∈ states) :
    ∃ a' q, setSample id states a = .ok ⟨⟩ a' ∧ Narrowed u but id p.sampled q a a' ∧
      ∀ w, w ∈ q.belief.worlds ↔ w ∈ p.belief.worlds ∧ w ∈ states := by
  obtain ⟨a₁, hrun₁, hsound₁, hself₁, hsamples⟩ := markSampled_yields h hp hisolated
  obtain ⟨a₂, q, hrun₂, hsound₂, hself₂, hakin, hworlds, hshrinks⟩ := restrict_yields hsound₁ hself₁
    (hisolated.congr hsamples.thins) hmeets
  refine ⟨a₂, q, ?_, ⟨hsound₂, hself₂, hakin, hsamples.thins.trans hshrinks.thins, ?_⟩, hworlds⟩
  · unfold setSample
    rw [Action.bind_of_ok hrun₁]
    exact hrun₂
  · exact (hsamples.spares (Forest.role_of_place hp)).trans (hshrinks.spares (Forest.role_of_place hself₁))

end Arena

/-! ## New roots -/

/-- A root for a belief that was never expanded. -/
def Place.root (depth : Nat) (role : Role) (worlds : StateSet) (isComplete : Bool)
    (standing : Standing) (nonempty : worlds.isEmpty = false) : Place where
  parent := none
  depth := depth
  role := role
  belief := {
    worlds := worlds
    isComplete := isComplete
    standing := standing
    nonempty := nonempty }

namespace Arena

variable {R : Type} {u : Upkeep} {but : NodeId → Prop} {a a' : Arena R} {k : NodeId} {q : Place}
  {view : View} {states : StateSet} {role : Role} {ply : Int} {isComplete : Bool}
  {standing : Standing}

lemma Sound.plant (h : a.Sound u but) (hnone : a.place? k = none) (hsane : a'.Sane)
    (hplaces : a'.place? = Function.update a.place? k (some q)) (hedges : q.edges = none)
    (hexpanded : q.belief.expanded = ∅) (hbuckets : q.belief.buckets = ∅) (hknown : q.Known u) :
    a'.Sound u but := by
  have hself : a'.place? k = some q := by rw [hplaces, Function.update_self]
  have hother : ∀ x, x ≠ k → a'.place? x = a.place? x := fun x hx => by
    rw [hplaces, Function.update_of_ne hx]
  have hold : ∀ {x r}, a.place? x = some r → a'.place? x = some r := by
    intro x r hr
    rw [hother x, hr]
    rintro rfl
    rw [hnone] at hr
    cases hr
  refine ⟨hsane, ?_, ?_, ?_⟩
  · intro x r e hr he
    by_cases hx : x = k
    · rw [hx, hself, Option.some.injEq] at hr
      simp [← hr, Place.edgeList, hedges] at he
    · rw [hother x hx] at hr
      obtain ⟨c, hc, hrest⟩ := h.graded x r e hr he
      exact ⟨c, hold hc, hrest⟩
  · intro x r hr
    by_cases hx : x = k
    · rw [hx, hself, Option.some.injEq] at hr
      exact hr ▸ hknown
    · rw [hother x hx] at hr
      exact h.known x r hr
  · intro x r hr hbut
    by_cases hx : x = k
    · rw [hx, hself, Option.some.injEq] at hr
      rw [← hr]
      exact Place.sound_of_pristine hedges hexpanded hbuckets
    · rw [hother x hx] at hr
      exact (h.kept x r hr hbut).congr fun e _ c hc => ⟨c, hold hc, .refl c⟩

/-- A root for a belief is added. -/
lemma addRoot_yields (h : a.Sound u but) (hply : 0 ≤ ply) (hne : states.isEmpty = false)
    (hknown : ∀ s ∈ states, u.states s) :
    ∃ k a', add (Node.belief? none ply role states isComplete standing) a = .ok k a' ∧
      a.place? k = none ∧ a'.Sound u but ∧
      a'.place? = Function.update a.place? k
        (some (Place.root ply.toNat role states isComplete standing hne)) := by
  obtain ⟨k, a', hrun, hnone, hsane, hplaces⟩ := add_place_yields h.sane
    (Place.root ply.toNat role states isComplete standing hne)
  refine ⟨k, a', ?_, hnone, ?_, hplaces⟩
  · rw [Node.belief?_yields none hply role hne isComplete standing]
    exact hrun
  · exact h.plant hnone hsane hplaces rfl rfl rfl ⟨hknown, Evidence.recorded_empty⟩

/-- A root is added unless its worlds differ on whether the owner is in control. -/
theorem addBelief_cases (view : View) (isComplete : Bool) (h : a.Sound u but) (hply : 0 ≤ ply)
    (hne : states.isEmpty = false) (hknown : ∀ s ∈ states, u.states s) :
    (∃ inControl k a', addBelief role ply view states isComplete a = .ok k a' ∧
        (∀ s ∈ states, s.isInControl role = inControl) ∧ a.place? k = none ∧ a'.Sound u but ∧
        a'.place? = Function.update a.place? k (some (Place.root ply.toNat role states isComplete
          (Node.standingOf inControl view) hne))) ∨
      (∃ s ∈ states, ∃ t ∈ states, s.isInControl role ≠ t.isInControl role) ∧
        addBelief role ply view states isComplete a =
          .error (.controlDiffers role.text view.text) a := by
  obtain ⟨s, hs⟩ := StateSet.isEmpty_eq_false_iff.1 hne
  let control := states.toList.map (·.isInControl role)
  have hmem : ∀ b, b ∈ control ↔ ∃ t ∈ states, t.isInControl role = b := by
    intro b
    simp only [control, List.mem_map, Std.ExtTreeSet.mem_toList]
  -- The states agree on who is in control if they all agree with one of them.
  by_cases hall : ∀ t ∈ states, t.isInControl role = s.isInControl role
  · left
    have hhead : control.headD false = s.isInControl role := by
      cases hcontrol : control with
      | nil =>
        have := (hmem (s.isInControl role)).2 ⟨s, hs, rfl⟩
        rw [hcontrol] at this
        cases this
      | cons b rest =>
        obtain ⟨t, ht, heq⟩ := (hmem b).1 (hcontrol ▸ List.mem_cons_self)
        exact heq.symm.trans (hall t ht)
    have hany : (control.any (· ≠ control.headD false)) = false := by
      rw [List.any_eq_false, hhead]
      intro b hb
      obtain ⟨t, ht, rfl⟩ := (hmem b).1 hb
      simp [hall t ht]
    obtain ⟨k, a', hrun, hrest⟩ := @addRoot_yields _ _ _ _ _ role _ isComplete
      (Node.standingOf (s.isInControl role) view) h hply hne hknown
    refine ⟨s.isInControl role, k, a', ?_, hall, hrest⟩
    unfold addBelief
    rw [if_neg (by rw [hany]; simp), hhead]
    exact hrun
  · right
    obtain ⟨t, ht, hdiffers⟩ : ∃ t ∈ states, t.isInControl role ≠ s.isInControl role := by
      by_contra hnone
      exact hall fun t ht => by
        by_contra hne
        exact hnone ⟨t, ht, hne⟩
    refine ⟨⟨t, ht, s, hs, hdiffers⟩, ?_⟩
    have hany : (control.any (· ≠ control.headD false)) = true := by
      rw [List.any_eq_true]
      by_cases hhead : control.headD false = s.isInControl role
      · exact ⟨_, (hmem _).2 ⟨t, ht, rfl⟩, decide_eq_true (by rw [hhead]; exact hdiffers)⟩
      · exact ⟨_, (hmem _).2 ⟨s, hs, rfl⟩, decide_eq_true (Ne.symm hhead)⟩
    unfold addBelief
    rw [if_pos hany]
    rfl

end Arena

end GameSearch
