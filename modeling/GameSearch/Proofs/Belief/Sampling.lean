import GameSearch.Proofs.Belief.Narrowing

/-!
# Beliefs that are samples

A belief that is taken for a sample keeps its worlds, but it and all below it no longer count as
complete.
-/

namespace GameSearch

/-- A place whose worlds are a sample. -/
def Place.sampled (p : Place) : Place := { p with belief := { p.belief with isComplete := false } }

namespace Place

variable {p : Place}

lemma sampled_eq_self (h : p.belief.isComplete = false) : p.sampled = p := by
  obtain ⟨parent, depth, role, ⟨worlds, expanded, buckets, history, isComplete, standing, hne⟩, edges,
    move⟩ := p
  simp only at h
  subst h
  rfl

end Place

/-- A forest in which some places count as samples: a place of a role and depth, and some below that
depth in the trees of that role. -/
def Forest.Samples (id : NodeId) (role : Role) (depth : Nat) (T T' : Forest) : Prop :=
  ∀ x, (T x = none → T' x = none) ∧ ∀ c, T x = some c →
    T' x = some c ∨ T' x = some c.sampled ∧ (x = id ∨ c.role = role ∧ depth < c.depth)

namespace Forest.Samples

variable {T T' T'' : Forest} {id : NodeId} {role : Role} {i : Nat}

lemma refl : Forest.Samples id role i T T := fun _ => ⟨fun h => h, fun _ hc => .inl hc⟩

lemma trans (h : Forest.Samples id role i T T') (h' : Forest.Samples id role i T' T'') :
    Forest.Samples id role i T T'' := by
  intro x
  refine ⟨fun hx => (h' x).1 ((h x).1 hx), fun c hc => ?_⟩
  rcases (h x).2 c hc with hsame | ⟨hsampled, hwhere⟩
  · exact (h' x).2 c hsame
  · rcases (h' x).2 _ hsampled with hsame' | ⟨hsampled', -⟩
    · exact .inr ⟨hsame', hwhere⟩
    · exact .inr ⟨hsampled', hwhere⟩

lemma lift {k : NodeId} {c : Place} (h : Forest.Samples k role (i + 1) T T') (hc : T k = some c)
    (hrole : c.role = role) (hdepth : c.depth = i + 1) : Forest.Samples id role i T T' := by
  intro x
  refine ⟨(h x).1, fun d hd => ?_⟩
  rcases (h x).2 d hd with hsame | ⟨hsampled, rfl | ⟨hr, hlt⟩⟩
  · exact .inl hsame
  · rw [hc, Option.some.injEq] at hd
    rw [← hd] at hsampled ⊢
    exact .inr ⟨hsampled, .inr ⟨hrole, by omega⟩⟩
  · exact .inr ⟨hsampled, .inr ⟨hr, by omega⟩⟩

lemma update {p : Place} (hp : T id = some p) :
    Forest.Samples id role i T (Function.update T id (some p.sampled)) := by
  intro x
  by_cases hx : x = id
  · rw [hx, hp, Function.update_self]
    refine ⟨by simp, fun c hc => ?_⟩
    rw [Option.some.injEq] at hc
    exact .inr ⟨hc ▸ rfl, .inl rfl⟩
  · rw [Function.update_of_ne hx]
    exact ⟨fun h => h, fun c hc => .inl hc⟩

lemma thins (h : Forest.Samples id role i T T') : Forest.Thins T T' := by
  intro x p' hp'
  cases hp : T x with
  | none =>
    rw [(h x).1 hp] at hp'
    cases hp'
  | some p =>
    rcases (h x).2 p hp with hsame | ⟨hsampled, -⟩
    · rw [hp', Option.some.injEq] at hsame
      rw [hsame]
      exact ⟨p, rfl, rfl, rfl, fun _ he => he⟩
    · rw [hp', Option.some.injEq] at hsampled
      rw [hsampled]
      exact ⟨p, rfl, rfl, rfl, fun _ he => he⟩

end Forest.Samples

namespace Arena

variable {R : Type} {u : Upkeep} {but : NodeId → Prop} {a a' : Arena R} {id : NodeId}
  {p p' q c : Place} {e : Edge} {height : Nat}

/-- Some of the children of a place have been taken for samples, like the place itself. -/
structure Sampling (u : Upkeep) (but : NodeId → Prop) (id : NodeId) (p : Place) (marked : List Edge)
    (a b : Arena R) : Prop where
  sound : b.Sound u fun x => but x ∨ x = id
  place : b.place? id = some p.sampled
  samples : Forest.Samples id p.role p.depth a.place? b.place?
  child : ∀ e ∈ marked, ∀ c, a.place? e.child = some c → b.place? e.child = some c.sampled

/-- Once its children are samples, a place that is a sample is sound. -/
lemma Sampling.settle {b : Arena R} (h : Sampling u but id p p.edgeList a b)
    (hsound : p.Sound u a.place? id) : b.Sound u but := by
  refine h.sound.settle h.place ⟨hsound.keyed, hsound.expanded, hsound.pristine, hsound.out,
    hsound.bucket, hsound.used, hsound.same, fun e he => ?_⟩
  obtain ⟨c, hc, hof⟩ := hsound.child e he
  exact ⟨c.sampled, h.child e he c hc, ⟨hof.parent, hof.depth, hof.role, hof.move, rfl, hof.standing,
    hof.worlds, hof.history⟩⟩

lemma Sampling.markNext {b b' : Arena R} {marked : List Edge} (h : Sampling u but id p marked a b)
    (hc : a.place? e.child = some c) (hrole : c.role = p.role) (hdepth : c.depth = p.depth + 1)
    (hsound : b'.Sound u fun x => but x ∨ x = id) (hplace : b'.place? e.child = some c.sampled)
    (hsamples : Forest.Samples e.child p.role (p.depth + 1) b.place? b'.place?) :
    Sampling u but id p (marked ++ [e]) a b' := by
  have hkeep : ∀ x (d : Place), b.place? x = some d.sampled → b'.place? x = some d.sampled := by
    intro x d hd
    rcases (hsamples x).2 _ hd with hsame | ⟨hsampled, -⟩
    · exact hsame
    · exact hsampled
  refine ⟨hsound, hkeep id p h.place, h.samples.trans ?_, fun x hx d hd => ?_⟩
  · rcases (h.samples e.child).2 c hc with hsame | ⟨hsampled, -⟩
    · exact hsamples.lift hsame hrole hdepth
    · exact hsamples.lift hsampled hrole hdepth
  · rcases List.mem_append.1 hx with hx | hx
    · exact hkeep x.child d (h.child x hx d hd)
    · rw [List.mem_singleton.1 hx] at hd ⊢
      rw [hc, Option.some.injEq] at hd
      rw [hplace, hd]

theorem markSampledWithin_yields (h : a.Sound u but) (hp : a.place? id = some p)
    (hheight : Forest.HeightBelow a.place? height id)
    (hisolated : Forest.Isolated but id p.depth a.place?) :
    ∃ a', markSampledWithin height id a = .ok ⟨⟩ a' ∧ a'.Sound u but ∧
      a'.place? id = some p.sampled ∧ Forest.Samples id p.role p.depth a.place? a'.place? := by
  induction height generalizing but a id p with
  | zero => exact hheight.elim
  | succ height ih =>
    have hid : ¬but id := hisolated.not_but hp
    rw [markSampledWithin, Action.bind_of_ok (belief_run hp)]
    cases hcomplete : p.belief.isComplete with
    | false =>
      refine ⟨a, rfl, h, ?_, .refl⟩
      rw [Place.sampled_eq_self hcomplete, hp]
    | true =>
      obtain ⟨a₁, hrun₁, hsane₁, hplaces₁⟩ := changeBelief_yields
        (fun b => { b with isComplete := false }) h.sane hp
      have hself : a₁.place? id = some p.sampled := by rw [hplaces₁, Function.update_self]; rfl
      obtain ⟨v, hnode⟩ := node_run hself
      have hsound := h.kept id p hp hid
      have hstart : Sampling u but id p [] a a₁ := by
        have hknown := (h.known id p hp).congr (q := p.sampled) (fun _ hs => hs) rfl rfl
        refine ⟨h.touch hp hsane₁ hplaces₁ rfl rfl hknown (fun _ he => he) (.inr hisolated.leads), hself,
          ?_, by simp⟩
        rw [hplaces₁]
        exact .update hp
      obtain ⟨_, b, hrun, hsampling⟩ := @Action.forIn_yields _ _ _ p.edgeList
        (fun e _ => do markSampledWithin height e.child; pure (ForInStep.yield PUnit.unit))
        (fun before _ b => Sampling u but id p before a b)
        (by
          rintro before e after ⟨⟩ b hlist hsampling
          have he : e ∈ p.edgeList := by
            rw [hlist]
            exact List.mem_append_right _ List.mem_cons_self
          obtain ⟨c, hc, hof⟩ := hsound.child e he
          obtain ⟨c', hc', hsampled, hdepth, hrole, hparent⟩ : ∃ c', b.place? e.child = some c' ∧
              c'.sampled = c.sampled ∧ c'.depth = p.depth + 1 ∧ c'.role = p.role ∧
              c'.parent = some (Int.ofNat id) := by
            rcases (hsampling.samples e.child).2 c hc with hsame | ⟨hsampled, -⟩
            · exact ⟨c, hsame, rfl, hof.depth, hof.role, hof.parent⟩
            · exact ⟨_, hsampled, rfl, hof.depth, hof.role, hof.parent⟩
          obtain ⟨b', hrun, hsound', hplace', hsamples'⟩ := ih hsampling.sound hc'
            ((hheight p hp e he).congr hsampling.samples.thins)
            (hsampling.sound.isolated_child hsampling.place hc' hparent hdepth
              (hisolated.congr hsampling.samples.thins).above)
          rw [hrole, hdepth] at hsamples'
          refine ⟨⟨⟩, b', ?_, hsampling.markNext hc hof.role hof.depth hsound' (hsampled ▸ hplace')
            hsamples'⟩
          rw [Action.bind_of_ok hrun]
          rfl)
        ⟨⟩ a₁ hstart
      refine ⟨b, ?_, hsampling.settle hsound, hsampling.place, hsampling.samples⟩
      simp only [Bool.not_true, Bool.false_eq_true, if_false]
      rw [Action.bind_of_ok hrun₁, Action.bind_of_ok hnode, Place.toNode_edges, ← Array.forIn_toList]
      exact (Action.bind_of_ok hrun).trans rfl

/-- A belief is taken for a sample. -/
theorem markSampled_yields (h : a.Sound u but) (hp : a.place? id = some p)
    (hisolated : Forest.Isolated but id p.depth a.place?) :
    ∃ a', markSampled id a = .ok ⟨⟩ a' ∧ a'.Sound u but ∧ a'.place? id = some p.sampled ∧
      Forest.Samples id p.role p.depth a.place? a'.place? :=
  markSampledWithin_yields h hp (h.heightBelow hp) hisolated

end Arena

end GameSearch
