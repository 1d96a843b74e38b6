import GameSearch.Proofs.Belief.Development
import GameSearch.Proofs.Dice
import GameSearch.Proofs.Sweep

/-!
# Belief after belief

A node that was found for a later ply is sampled if it has too many worlds, and then made a root.
`develop_cases` is about the first step.  The sweep that comes with the second one removes all that is
no longer sound.
-/

namespace GameSearch

/-- A place that was sampled if it had too many worlds. -/
inductive Place.Limited (q : Place) : Place → Prop
  | whole : q.belief.worlds.size ≤ Arena.maxWorlds → Limited q q
  | sample {q' : Place} : Arena.maxWorlds < q.belief.worlds.size → q.sampled.Akin q' →
      (∀ s ∈ q'.belief.worlds, s ∈ q.belief.worlds) → q'.belief.worlds.size = Arena.maxWorlds →
      Limited q q'

namespace Place.Limited

variable {q q' : Place}

lemma size_le (h : q.Limited q') : q'.belief.worlds.size ≤ Arena.maxWorlds := by
  cases h with
  | whole h => exact h
  | sample _ _ _ h => exact Nat.le_of_eq h

lemma worlds (h : q.Limited q') : ∀ s ∈ q'.belief.worlds, s ∈ q.belief.worlds := by
  cases h with
  | whole _ => exact fun s hs => hs
  | sample _ _ h _ => exact h

lemma eq_of_isComplete (h : q.Limited q') (hcomplete : q'.belief.isComplete = true) : q' = q := by
  cases h with
  | whole _ => rfl
  | sample _ hakin _ _ =>
    rw [hakin.isComplete] at hcomplete
    cases hcomplete

lemma standing (h : q.Limited q') : q'.belief.standing = q.belief.standing := by
  cases h with
  | whole _ => rfl
  | sample _ hakin _ _ => exact hakin.standing

lemma history (h : q.Limited q') : q'.belief.history = q.belief.history := by
  cases h with
  | whole _ => rfl
  | sample _ hakin _ _ => exact hakin.history

lemma move (h : q.Limited q') : q'.move = q.move := by
  cases h with
  | whole _ => rfl
  | sample _ hakin _ _ => exact hakin.move

end Place.Limited

def Place.detached (p : Place) : Place := { p with parent := none }

namespace Arena

variable {R ε : Type} [Dice ε] {u : Upkeep} {but : NodeId → Prop} {a a' : Arena R} {id k : NodeId}
  {p q c : Place} {view : View} {role : Role} {ply : Int} {host : ε}

/-- A sample is taken of a node that was found if it has too many worlds. -/
lemma Reached.limit (h : Reached u role ply k q a a') (host : ε) :
    ∃ a'' q' host', limitWorlds k ⟨a', host⟩ = .ok ⟨⟩ ⟨a'', host'⟩ ∧
      Reached u role ply k q' a a'' ∧ q.Limited q' := by
  have hbelief : Hosted.onOwn (belief k) ⟨a', host⟩ = .ok q.belief (⟨a', host⟩ : Hosted (Arena R) ε) := by
    simp only [Hosted.onOwn, belief_run h.place]
  unfold limitWorlds
  rw [Action.bind_of_ok hbelief]
  by_cases hsize : q.belief.worlds.size > maxWorlds
  · obtain ⟨sample, host', hsample, hsub, hlength⟩ := Dice.sample_run q.belief.worlds.toList maxWorlds host
    rw [StateSet.size_toList, Nat.min_eq_left (Nat.le_of_lt hsize)] at hlength
    have hin : ∀ s ∈ sample, s ∈ q.belief.worlds := fun s hs =>
      Std.ExtTreeSet.mem_toList.1 (hsub.subset hs)
    obtain ⟨s, hs⟩ := List.exists_mem_of_length_pos (l := sample) (by rw [hlength]; decide)
    obtain ⟨but, hsound, hisolated, hroles⟩ := h.sound
    obtain ⟨a'', q', hrun, hnarrowed, hworlds⟩ := setSample_yields hsound h.place hisolated
      ⟨s, hin s hs, StateSet.mem_ofList.2 hs⟩
    have hsame : q'.belief.worlds = .ofList sample := by
      refine StateSet.ext_iff_mem.2 fun t => ?_
      rw [hworlds, StateSet.mem_ofList]
      exact ⟨And.right, fun ht => ⟨hin t ht, ht⟩⟩
    refine ⟨a'', q', host', ?_, ⟨hnarrowed.place, ?_, ?_, ?_, ?_⟩, .sample hsize hnarrowed.akin
      (fun t ht => ((hworlds t).1 ht).1) ?_⟩
    · have hdraw : Hosted.onHost (Dice.sample maxWorlds q.belief.worlds.toList) ⟨a', host⟩ =
          .ok sample (⟨a', host'⟩ : Hosted (Arena R) ε) := by
        simp only [Hosted.onHost, hsample]
      rw [if_pos hsize, Action.bind_of_ok hdraw]
      simp only [Hosted.onOwn, hrun]
    · exact hnarrowed.akin.role.trans h.owner
    · rw [hnarrowed.akin.depth]
      exact h.level
    · exact .narrowed hnarrowed.sound hisolated hroles hnarrowed.akin.depth hnarrowed.akin.role
        hnarrowed.thins
    · have hspares := hnarrowed.spares
      rw [show q.sampled.role = role from h.owner] at hspares
      exact h.spares.trans hspares
    · rw [hsame, StateSet.size_ofList_of_sublist hsub, hlength]
  · refine ⟨a', q, host, ?_, h, .whole (Nat.not_lt.1 hsize)⟩
    rw [if_neg hsize]
    rfl

/-- A belief is not developed if no node is found. -/
lemma develop_of_error {game : Game} {f : Fault} (host : ε) (hp : a.place? id = some p)
    (hfind : developBelief game id ply view a = .error f a') :
    develop game id ply view ⟨a, host⟩ = .error f ⟨a', host⟩ := by
  obtain ⟨v, hnode⟩ := node_run hp
  have hown : Hosted.onOwn (node id) ⟨a, host⟩ = .ok (p.toNode v) (⟨a, host⟩ : Hosted (Arena R) ε) := by
    simp only [Hosted.onOwn, hnode]
  have hfound : Hosted.onOwn (developBelief game id ply view) ⟨a, host⟩ =
      .error f (⟨a', host⟩ : Hosted (Arena R) ε) := by
    simp only [Hosted.onOwn, hfind]
  rw [develop, Action.bind_of_ok hown]
  exact Action.bind_of_error hfound

/-- What developing a belief comes to. -/
theorem develop_cases (view : View) (host : ε) (h : a.AllSound u) (hp : a.place? id = some p)
    (hstart : u.states u.game.start) (hply : (p.depth : Int) ≤ ply) (hle : ply ≤ 2147483647)
    (hrecalls : u.recalls → ∀ q, p.Meets u ply view (p.observedUpTo ply view) q →
      ((p.depth : Int) = ply → p.belief.view? = some view → q = p) →
      q.edges = none ∨ q.belief.history = p.observedUpTo ply view) :
    (∃ a' host' k q q', develop u.game id ply view ⟨a, host⟩ = .ok k ⟨a', host'⟩ ∧
        Reached u p.role ply k q' a a' ∧ p.Meets u ply view (p.observedUpTo ply view) q ∧
        (q.recording (p.observedUpTo ply view)).Limited q') ∨
      ∃ a' f, develop u.game id ply view ⟨a, host⟩ = .error f ⟨a', host⟩ ∧
        p.Unmet u ply view (p.observedUpTo ply view) f := by
  rcases developBelief_cases view h hp hstart hply hle hrecalls with
    ⟨a₁, k, q, hfind, hreached, hmeets⟩ | ⟨a₁, f, hfind, hunmet⟩
  · obtain ⟨v, hnode⟩ := node_run hp
    have hown : Hosted.onOwn (node id) ⟨a, host⟩ = .ok (p.toNode v) (⟨a, host⟩ : Hosted (Arena R) ε) := by
      simp only [Hosted.onOwn, hnode]
    have hfound : Hosted.onOwn (developBelief u.game id ply view) ⟨a, host⟩ =
        .ok k (⟨a₁, host⟩ : Hosted (Arena R) ε) := by
      simp only [Hosted.onOwn, hfind]
    obtain ⟨a₂, q', host', hlimit, hreached', hlimited⟩ := hreached.limit host
    refine .inl ⟨a₂, host', k, q, q', ?_, hreached', hmeets, hlimited⟩
    rw [develop, Action.bind_of_ok hown]
    exact (Action.bind_of_ok hfound).trans (Action.bind_of_ok hlimit)
  · exact .inr ⟨a₁, f, develop_of_error host hp hfind, hunmet⟩

lemma develop_back (hp : a.place? id = some p) (hply : ply < p.depth) :
    develop u.game id ply view ⟨a, host⟩ = .error (.developedBack p.depth ply) ⟨a, host⟩ :=
  develop_of_error host hp (developBelief_back hp hply view)

/-- A play that is followed is not followed back. -/
lemma depth_le_of_develop {host' : ε} (hp : a.place? id = some p)
    (hrun : develop u.game id ply view ⟨a, host⟩ = .ok k ⟨a', host'⟩) : (p.depth : Int) ≤ ply := by
  by_contra hlt
  rw [develop_back hp (Int.not_le.1 hlt)] at hrun
  cases hrun

/-! ## New roots -/

lemma Sound.detached (h : q.Sound u a.place? k) : q.detached.Sound u a.place? k :=
  ⟨h.keyed, h.expanded, h.pristine, h.out, h.bucket, h.used, h.same, fun e he => by
    obtain ⟨c, hc, hof⟩ := h.child e he
    exact ⟨c, hc, ⟨hof.parent, hof.depth, hof.role, hof.move, hof.isComplete, hof.standing, hof.worlds,
      hof.history⟩⟩⟩

/-- A node is made a root.  What is above it is no longer sound. -/
theorem detach_yields (h : a.Sound u but) (hq : a.place? k = some q) (hk : ¬but k) :
    ∃ a', detach k a = .ok ⟨⟩ a' ∧ a'.Sound u (fun x => but x ∨ a.Precedes k x) ∧
      a'.place? = Function.update a.place? k (some q.detached) := by
  obtain ⟨v, hnode⟩ := node_run hq
  obtain ⟨a', hrun, hsane, hplaces⟩ := change_yields
    (f := fun n => { n with parent := none }) (g := Place.detached) (fun _ _ => rfl) h.sane hq
  have hself : a'.place? k = some q.detached := by rw [hplaces, Function.update_self]
  have hknown := (h.known k q hq).congr (q := q.detached) (fun _ hs => hs) rfl rfl
  have hmono : a.Sound u (fun x => but x ∨ a.Precedes k x) := h.mono fun x hx => .inl hx
  have htouch := hmono.touch hq hsane hplaces rfl rfl hknown (fun _ he => he)
    (.inr fun x r hr hx e he heq => hx (.inr ⟨r, hr, e, he, heq⟩))
  refine ⟨a', ?_, htouch.settle hself ?_, hplaces⟩
  · rw [detach, Action.bind_of_ok hnode]
    exact hrun
  · refine Place.Fits.congr (Sound.detached (h.kept k q hq hk)) fun e he c hc => ⟨c, ?_, .refl c⟩
    rw [hplaces, Function.update_of_ne (h.child_ne hq he), hc]

lemma Sound.leads (h : a.Sound u but) (hq : a.place? k = some q) {x : NodeId} (hx : a.Leads k x) :
    ∃ r, a.place? x = some r ∧ q.depth ≤ r.depth ∧ r.role = q.role := by
  induction hx with
  | refl => exact ⟨q, hq, Nat.le_refl _, rfl⟩
  | step _ he ih =>
    obtain ⟨r, hr, hdepth, hrole⟩ := ih
    rw [edgesOf_of_place? hr] at he
    obtain ⟨c, hc, hcdepth, hcrole⟩ := h.graded _ r _ hr he
    exact ⟨c, hc, by omega, hcrole.trans hrole⟩

/-- A sweep keeps what edges lead to from the roots, as it is. -/
lemma Sound.place?_sweep (h : a.Sound u but) (roots : List NodeId) (x : NodeId) :
    (a.Kept roots x → (a.sweep roots).2.place? x = a.place? x) ∧
      (¬a.Kept roots x → (a.sweep roots).2.place? x = none) := by
  obtain ⟨hkept, hgone⟩ := @find?_sweep _ _ x h.closed roots
  exact ⟨fun hx => by simp only [place?, hkept hx], fun hx => by simp [place?, hgone hx]⟩

/-- After a sweep all is sound if only what was swept away was not. -/
theorem Sound.sweep (h : a.Sound u but) {roots : List NodeId} (hroots : ∀ x, a.Kept roots x → ¬but x) :
    (a.sweep roots).2.AllSound u := by
  have hplace : ∀ {x r}, (a.sweep roots).2.place? x = some r → a.Kept roots x ∧ a.place? x = some r := by
    intro x r hr
    obtain ⟨hkept, hgone⟩ := h.place?_sweep roots x
    by_cases hx : a.Kept roots x
    · exact ⟨hx, by rw [← hkept hx, hr]⟩
    · rw [hgone hx] at hr
      cases hr
  have hchild : ∀ {x r e}, a.Kept roots x → a.place? x = some r → e ∈ r.edgeList →
      (a.sweep roots).2.place? e.child = a.place? e.child := by
    rintro x r e ⟨root, hroot, hlive, hleads⟩ hr he
    rw [← edgesOf_of_place? hr] at he
    exact (h.place?_sweep roots e.child).1 ⟨root, hroot, hlive, hleads.step he⟩
  refine ⟨⟨h.sane.orderly.sweep roots, fun x n hn => ?_⟩, fun x r e hr he => ?_, fun x r hr => ?_,
    fun x r hr _ => ?_⟩
  · obtain ⟨hkept, hgone⟩ := @find?_sweep _ _ x h.closed roots
    by_cases hx : a.Kept roots x
    · exact h.sane.beliefs x n (by rw [← hkept hx, hn])
    · rw [hgone hx] at hn
      cases hn
  · obtain ⟨hx, hr⟩ := hplace hr
    rw [hchild hx hr he]
    exact h.graded x r e hr he
  · exact h.known x r (hplace hr).2
  · obtain ⟨hx, hr⟩ := hplace hr
    exact (h.kept x r hr (hroots x hx)).congr fun e he c hc => ⟨c, by rw [hchild hx hr he, hc], .refl c⟩

/-- A node that was found is made the only root. -/
theorem SoundBelow.reroot (h : SoundBelow u a k q) (hq : a.place? k = some q) :
    ∃ a', reroot k a = .ok ⟨⟩ a' ∧ a'.AllSound u ∧ a'.place? k = some q.detached := by
  obtain ⟨but, hsound, hisolated, -⟩ := h
  obtain ⟨a₁, hdetach, hsound₁, hplaces⟩ := detach_yields hsound hq (hisolated.not_but hq)
  have hself : a₁.place? k = some q.detached := by rw [hplaces, Function.update_self]
  have hroots : ∀ x, a₁.Kept [k] x → ¬(but x ∨ a.Precedes k x) := by
    rintro x ⟨root, hroot, -, hleads⟩ hx
    rw [List.mem_singleton.1 hroot] at hleads
    obtain ⟨r, hr, hdepth, -⟩ := hsound₁.leads hself hleads
    have hthins : Forest.Thins a.place? a₁.place? := by
      rw [hplaces]
      exact .update hq rfl rfl fun _ he => he
    obtain ⟨r', hr', hdepth', -⟩ := hthins x r hr
    have hlt : r'.depth < q.depth := by
      rcases hx with hx | hx
      · exact hisolated.above x r' hx hr'
      · exact (hsound.precedes hq hx hr').2
    have hle : q.depth ≤ r.depth := hdepth
    omega
  refine ⟨_, ?_, hsound₁.sweep hroots, ?_⟩
  · rw [Arena.reroot, Action.bind_of_ok hdetach]
    rfl
  · rw [((hsound₁.place?_sweep [k] k).1 ⟨k, List.mem_singleton_self k, ?_, .refl⟩), hself]
    exact hsound₁.sane.contains_iff.2 ⟨_, hself⟩

end Arena

end GameSearch
