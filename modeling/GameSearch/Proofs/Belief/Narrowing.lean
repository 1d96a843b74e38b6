import Mathlib.Data.Finset.Card
import GameSearch.Proofs.Belief.Expansion

/-!
# Narrowing of beliefs

A belief that gets narrower drops edges, and the children get narrower in turn.  `Restricts` says
what that comes to at one place, for any way of narrowing the places below it; `restrictWithin`
satisfies it by induction on the fuel, which suffices because depths increase along edges.
-/

namespace GameSearch

/-! ## Frames -/

namespace Forest

variable {T T' T'' : Forest} {id root : NodeId} {role : Role} {i j : Nat}

/-- The places of a forest are still there in another one, with fewer worlds and edges at most; what
is changed is a place of a role and depth, or one below that depth in the trees of that role. -/
def Shrinks (id : NodeId) (role : Role) (depth : Nat) (T T' : Forest) : Prop :=
  ∀ x, (T x = none → T' x = none) ∧ ∀ c, T x = some c → ∃ c', T' x = some c' ∧ c.Akin c' ∧
    (∀ e ∈ c'.edgeList, e ∈ c.edgeList) ∧ (c' = c ∨ x = id ∨ c.role = role ∧ depth < c.depth)

lemma Shrinks.refl : Shrinks id role i T T :=
  fun _ => ⟨fun h => h, fun c hc => ⟨c, hc, .refl c, fun _ h => h, .inl rfl⟩⟩

lemma Shrinks.trans (h : Shrinks id role i T T') (h' : Shrinks id role i T' T'') :
    Shrinks id role i T T'' := by
  intro x
  refine ⟨fun hx => (h' x).1 ((h x).1 hx), fun c hc => ?_⟩
  obtain ⟨c', hc', hakin, hedges, hcase⟩ := (h x).2 c hc
  obtain ⟨c'', hc'', hakin', hedges', hcase'⟩ := (h' x).2 c' hc'
  refine ⟨c'', hc'', hakin.trans hakin', fun e he => hedges e (hedges' e he), ?_⟩
  rcases hcase with heq | hchanged
  · rw [heq] at hcase'
    exact hcase'
  · exact .inr hchanged

/-- What is changed below a child is changed below the place above it. -/
lemma Shrinks.lift {k : NodeId} {c : Place} (h : Shrinks k role (i + 1) T T') (hc : T k = some c)
    (hrole : c.role = role) (hdepth : c.depth = i + 1) : Shrinks id role i T T' := by
  intro x
  refine ⟨(h x).1, fun d hd => ?_⟩
  obtain ⟨d', hd', hakin, hedges, hcase⟩ := (h x).2 d hd
  refine ⟨d', hd', hakin, hedges, ?_⟩
  rcases hcase with heq | rfl | ⟨hr, hlt⟩
  · exact .inl heq
  · rw [hc, Option.some.injEq] at hd
    rw [← hd]
    exact .inr (.inr ⟨hrole, by omega⟩)
  · exact .inr (.inr ⟨hr, by omega⟩)

/-- A place that is not below the one that is changed stays as it is. -/
lemma Shrinks.keep {k : NodeId} {d : Place} (h : Shrinks id role i T T') (hd : T k = some d) (hk : k ≠ id)
    (hle : d.depth ≤ i) : T' k = some d := by
  obtain ⟨d', hd', -, -, hcase⟩ := (h k).2 d hd
  rcases hcase with rfl | heq | ⟨-, hlt⟩
  · exact hd'
  · exact absurd heq hk
  · omega

lemma Shrinks.update {p p' : Place} (hp : T id = some p) (hakin : p.Akin p')
    (hedges : ∀ e ∈ p'.edgeList, e ∈ p.edgeList) :
    Shrinks id role i T (Function.update T id (some p')) := by
  intro x
  by_cases hx : x = id
  · rw [hx, hp, Function.update_self]
    refine ⟨by simp, fun c hc => ?_⟩
    rw [Option.some.injEq] at hc
    exact ⟨p', rfl, hc ▸ hakin, hc ▸ hedges, .inr (.inl rfl)⟩
  · rw [Function.update_of_ne hx]
    exact ⟨fun h => h, fun c hc => ⟨c, hc, .refl c, fun _ h => h, .inl rfl⟩⟩

/-! ## Height -/

/-- No path of edges from a place has more than the given number of places. -/
def HeightBelow (T : Forest) : Nat → NodeId → Prop
  | 0, _ => False
  | height + 1, id => ∀ p, T id = some p → ∀ e ∈ p.edgeList, HeightBelow T height e.child

lemma HeightBelow.step {height : Nat} (h : HeightBelow T height id) :
    HeightBelow T (height + 1) id := by
  induction height generalizing id with
  | zero => exact h.elim
  | succ height ih => exact fun p hp e he => ih (h p hp e he)

lemma HeightBelow.congr {height : Nat} (h : HeightBelow T height id) (hthins : Thins T T') :
    HeightBelow T' height id := by
  induction height generalizing id with
  | zero => exact h
  | succ height ih =>
    intro p' hp' e he
    obtain ⟨p, hp, -, -, hsub⟩ := hthins id p' hp'
    exact ih (h p hp e (hsub e he))

lemma Shrinks.thins (h : Shrinks id role i T T') : Thins T T' := by
  intro x p' hp'
  cases hp : T x with
  | none =>
    rw [(h x).1 hp] at hp'
    cases hp'
  | some p =>
    obtain ⟨p'', hp'', hakin, hedges, -⟩ := (h x).2 p hp
    rw [hp', Option.some.injEq] at hp''
    rw [hp'']
    exact ⟨p, rfl, hakin.depth, hakin.role, hedges⟩

end Forest

namespace Arena

variable {R : Type} {u : Upkeep} {but : NodeId → Prop} {a a' : Arena R} {id : NodeId}
  {p q c : Place} {e : Edge}

open Classical in
/-- The places from a depth on. -/
noncomputable def deepIds (a : Arena R) (depth : Nat) : Finset NodeId :=
  (Finset.range a.slots.size).filter fun id => ∃ p, a.place? id = some p ∧ depth ≤ p.depth

lemma mem_deepIds {depth : Nat} :
    id ∈ a.deepIds depth ↔ ∃ p, a.place? id = some p ∧ depth ≤ p.depth := by
  simp only [deepIds, Finset.mem_filter, Finset.mem_range, and_iff_right_iff_imp]
  rintro ⟨p, hp, -⟩
  obtain ⟨v, hv⟩ := find?_of_place? hp
  exact lt_size_of_find? hv

lemma Sound.heightBelow_of_card (h : a.Sound u but) {height : Nat} (hp : a.place? id = some p)
    (hcard : (a.deepIds p.depth).card ≤ height) : Forest.HeightBelow a.place? height id := by
  induction height generalizing id p with
  | zero =>
    have hid : id ∈ a.deepIds p.depth := mem_deepIds.2 ⟨p, hp, Nat.le_refl _⟩
    have := Finset.card_pos.2 ⟨id, hid⟩
    omega
  | succ height ih =>
    intro q hq e he
    rw [hp, Option.some.injEq] at hq
    rw [← hq] at he
    obtain ⟨c, hc, hdepth, -⟩ := h.graded id p e hp he
    refine ih hc ?_
    have hsub : a.deepIds c.depth ⊂ a.deepIds p.depth := by
      refine (Finset.ssubset_iff_of_subset fun x hx => ?_).2 ⟨id, ?_, fun hid => ?_⟩
      · obtain ⟨r, hr, hle⟩ := mem_deepIds.1 hx
        exact mem_deepIds.2 ⟨r, hr, by omega⟩
      · exact mem_deepIds.2 ⟨p, hp, Nat.le_refl _⟩
      · obtain ⟨r, hr, hle⟩ := mem_deepIds.1 hid
        rw [hp, Option.some.injEq] at hr
        rw [← hr] at hle
        omega
    have := Finset.card_lt_card hsub
    omega

/-- As depths increase along edges, no path is longer than the arena is large. -/
lemma Sound.heightBelow (h : a.Sound u but) (hp : a.place? id = some p) :
    Forest.HeightBelow a.place? (a.slots.size + 1) id := by
  refine h.heightBelow_of_card hp ?_
  have hle : (a.deepIds p.depth).card ≤ (Finset.range a.slots.size).card :=
    Finset.card_le_card (Finset.filter_subset _ _)
  rw [Finset.card_range] at hle
  omega

/-! ## The states that edges lead to -/

lemma getD_statesByChild {edges : Array Edge} {k : NodeId} {s : State} :
    s ∈ (statesByChild edges).getD k ∅ ↔ ∃ e ∈ edges.toList, e.child = k ∧ e.next = s := by
  suffices h : ∀ (l : List Edge) (m : Std.ExtTreeMap NodeId StateSet),
      s ∈ (l.foldl (fun m e => m.insert e.child ((m.getD e.child ∅).insert e.next)) m).getD k ∅ ↔
        s ∈ m.getD k ∅ ∨ ∃ e ∈ l, e.child = k ∧ e.next = s by
    rw [statesByChild, ← Array.foldl_toList, h]
    simp
  intro l
  induction l with
  | nil => simp
  | cons e l ih =>
    intro m
    rw [List.foldl_cons, ih, Std.ExtTreeMap.getD_insert]
    by_cases hk : e.child = k
    · simp only [hk, Std.compare_self, if_true, StateSet.mem_insert, List.mem_cons,
        exists_eq_or_imp, true_and, @eq_comm _ s e.next]
      rw [or_assoc, or_left_comm]
    · simp [hk]

lemma contains_statesByChild {edges : Array Edge} {k : NodeId} :
    (statesByChild edges).contains k = true ↔ ∃ e ∈ edges.toList, e.child = k := by
  suffices h : ∀ (l : List Edge) (m : Std.ExtTreeMap NodeId StateSet),
      (l.foldl (fun m e => m.insert e.child ((m.getD e.child ∅).insert e.next)) m).contains k =
        true ↔ m.contains k = true ∨ ∃ e ∈ l, e.child = k by
    rw [statesByChild, ← Array.foldl_toList, h]
    simp
  intro l
  induction l with
  | nil => simp
  | cons e l ih =>
    intro m
    rw [List.foldl_cons, ih, Std.ExtTreeMap.contains_insert]
    simp only [Bool.or_eq_true, beq_iff_eq, Std.compare_eq_iff_eq, List.mem_cons,
      exists_eq_or_imp, or_assoc, or_left_comm]

lemma mem_toList_statesByChild {edges : Array Edge} {k : NodeId} {states : StateSet}
    (h : (k, states) ∈ (statesByChild edges).toList) :
    (∃ e ∈ edges.toList, e.child = k) ∧
      ∀ s, s ∈ states ↔ ∃ e ∈ edges.toList, e.child = k ∧ e.next = s := by
  rw [Std.ExtTreeMap.mem_toList_iff_getElem?_eq_some] at h
  refine ⟨contains_statesByChild.1 ?_, fun s => ?_⟩
  · rw [Std.ExtTreeMap.contains_eq_isSome_getElem?, h]
    rfl
  · rw [← getD_statesByChild, Std.ExtTreeMap.getD_eq_getD_getElem?, h]
    rfl

end Arena

/-! ## Trimming -/

namespace Place

variable {u : Upkeep} {id : NodeId} {p p' q c c' : Place} {e : Edge} {w : State} {T T' : Forest}

/-- A place has lost worlds, or its owner has been committed, but its edges are still the old
ones. -/
structure Untrimmed (u : Upkeep) (q p : Place) : Prop where
  parent : p.parent = q.parent
  depth : p.depth = q.depth
  role : p.role = q.role
  isComplete : p.belief.isComplete = q.belief.isComplete
  standing : p.belief.standing = q.belief.standing
  history : p.belief.history = q.belief.history
  edges : p.edges = q.edges
  buckets : p.belief.buckets = q.belief.buckets
  worlds : ∀ w ∈ p.belief.worlds, w ∈ q.belief.worlds
  expanded : ∀ w, w ∈ p.belief.expanded ↔ w ∈ q.belief.expanded ∧ w ∈ p.belief.worlds
  move : q.move = none ∨ q.move = p.move ∨ ¬u.steady ∧ p.move ≠ none

/-- Whether an edge leads out of a world that is left, by a turn that agrees with the committed
move. -/
def retains (p : Place) (e : Edge) : Bool :=
  e.key.world.any p.belief.worlds.contains && p.accepts e.turn

/-- A place has the edges that are to be retained, and the buckets of the children that they lead
to. -/
structure Trimmed (p p' : Place) : Prop where
  alike : p.Alike p'
  expanded : p'.belief.expanded = p.belief.expanded
  edges : p'.edgeList = p.edgeList.filter p.retains
  pristine : p'.edges = none → p.edges = none
  buckets : ∀ (o : Observation) (child : NodeId), p'.belief.buckets[o]? = some child ↔
    p.belief.buckets[o]? = some child ∧ ∃ e ∈ p'.edgeList, e.child = child

lemma Trimmed.mem (h : p.Trimmed p') : e ∈ p'.edgeList ↔ e ∈ p.edgeList ∧ p.retains e = true := by
  rw [h.edges, List.mem_filter]

lemma Untrimmed.refl (h : ∀ w ∈ p.belief.expanded, w ∈ p.belief.worlds) : Untrimmed u p p :=
  ⟨rfl, rfl, rfl, rfl, rfl, rfl, rfl, rfl, fun _ hw => hw, fun w => ⟨fun hw => ⟨hw, h w hw⟩, And.left⟩,
    .inr (.inl rfl)⟩

lemma Untrimmed.keyOf (h : Untrimmed u q p) (w : State) (turn : Turn) :
    p.keyOf w turn = q.keyOf w turn := by
  simp only [Place.keyOf, isVisible_eq_of_standing h.standing, h.role]

lemma Untrimmed.seen (h : Untrimmed u q p) (e : Edge) : p.seen u e = q.seen u e := by
  simp only [Place.seen, h.role]

lemma Untrimmed.edgeList (h : Untrimmed u q p) : p.edgeList = q.edgeList := by
  simp only [Place.edgeList, h.edges]

lemma Untrimmed.wavers (h : Untrimmed u q p) (hq : q.Wavers u) : p.Wavers u := by
  have hvisible := (isVisible_eq_of_standing h.standing).trans hq.2.2
  rcases h.move with hmove | hmove | ⟨hunsteady, hmove⟩
  · exact absurd hmove hq.2.1
  · exact ⟨hq.1, hmove ▸ hq.2.1, hvisible⟩
  · exact ⟨hunsteady, hmove, hvisible⟩

/-- What agrees with the new move, of the transitions that agreed with the old one. -/
lemma Untrimmed.filter_accepts (h : Untrimmed u q p) (l : List (Turn × State)) :
    (l.filter fun step => q.accepts step.1).filter (fun step => p.accepts step.1) =
        l.filter (fun step => p.accepts step.1) ∨
      p.Wavers u ∧ (l.filter fun step => q.accepts step.1).filter (fun step => p.accepts step.1) =
        [] := by
  have hvisible := isVisible_eq_of_standing h.standing
  rw [List.filter_filter]
  rcases h.move with hmove | hmove | ⟨hunsteady, hmove⟩
  · exact .inl (by simp [Place.accepts, hmove])
  · refine .inl (List.filter_congr fun step _ => ?_)
    simp [Place.accepts, hmove, hvisible, h.role]
  · cases hq : q.move with
    | none => exact .inl (by simp [Place.accepts, hq])
    | some old =>
      cases hv : q.belief.isVisible with
      | false => exact .inl (by simp [Place.accepts, hq, hv])
      | true =>
        cases hp : p.move with
        | none => exact absurd hp hmove
        | some new =>
          by_cases heq : old = new
          · refine .inl (List.filter_congr fun step _ => ?_)
            simp [Place.accepts, hp, hq, hv, hvisible, h.role, heq]
          · refine .inr ⟨⟨hunsteady, hmove, hvisible.trans hv⟩, List.filter_eq_nil_iff.2 fun step _ => ?_⟩
            simp only [Place.accepts, hp, hq, hv, hvisible, h.role, Turn.contains]
            grind

lemma Trimmed.out (h : p.Trimmed p') (hcut : Untrimmed u q p) :
    p'.out w = if w ∈ p.belief.worlds then (q.out w).filter (fun step => p.accepts step.1) else [] := by
  simp only [Place.out, h.edges, hcut.edgeList, List.filter_filter, List.filter_map]
  split
  · rename_i hw
    congr 1
    refine List.filter_congr fun e he => ?_
    by_cases hworld : e.key.world = some w
    · have hcontains : p.belief.worlds.contains w = true := hw
      simp [retains, hworld, hcontains]
    · simp [hworld]
  · rename_i hw
    rw [List.map_eq_nil_iff, List.filter_eq_nil_iff]
    intro e he hboth
    rw [Bool.and_eq_true, decide_eq_true_eq, retains, Bool.and_eq_true] at hboth
    obtain ⟨hworld, hany, -⟩ := hboth
    rw [hworld] at hany
    exact hw hany

lemma Trimmed.mem_edgeList (h : p.Trimmed p') (hcut : Untrimmed u q p) (he : e ∈ p'.edgeList) :
    e ∈ q.edgeList := by
  rw [← hcut.edgeList]
  exact (h.mem.1 he).1

lemma Trimmed.mem_expanded (h : p.Trimmed p') (hcut : Untrimmed u q p) :
    w ∈ p'.belief.expanded ↔ w ∈ q.belief.expanded ∧ w ∈ p.belief.worlds := by
  rw [h.expanded, hcut.expanded]

/-- The child that a retained edge leads to, before it is narrowed down. -/
lemma Trimmed.child (h : p.Trimmed p') (hcut : Untrimmed u q p) (hq : q.Sound u T id) (he : e ∈ p'.edgeList) :
    ∃ c, T e.child = some c ∧ c.parent = some (Int.ofNat id) ∧ c.depth = p'.depth + 1 ∧
      c.role = p'.role ∧ ∀ s, p'.LeadsTo e.child s → s ∈ c.belief.worlds := by
  obtain ⟨c, hc, hof⟩ := hq.child e (h.mem_edgeList hcut he)
  refine ⟨c, hc, hof.parent, by rw [hof.depth, h.alike.depth, hcut.depth],
    by rw [hof.role, h.alike.role, hcut.role], fun s ⟨x, hx, hchild, hnext⟩ => ?_⟩
  exact (hof.worlds s).2 ⟨x, h.mem_edgeList hcut hx, hchild, hnext⟩

/-- A place without edges has been trimmed. -/
lemma Untrimmed.trimmed_self (hcut : Untrimmed u q p) (hq : q.Sound u T id) (hedges : p.edges = none) :
    p.Trimmed p := by
  have hlist := edgeList_of_none hedges
  refine ⟨.refl p, rfl, by simp [hlist], fun h => h, fun o child => ?_⟩
  rw [hlist]
  simp only [List.not_mem_nil, false_and, exists_false, and_false, iff_false]
  intro hbucket
  rw [hcut.buckets] at hbucket
  obtain ⟨e, he, -⟩ := hq.used o child hbucket
  rw [← hcut.edgeList, hlist] at he
  cases he

/-- The edges out of the worlds that are left are those of the transitions that agree with the move. -/
lemma Trimmed.out_done (h : p.Trimmed p') (hcut : Untrimmed u q p) (hq : q.Sound u T id) (w : State) :
    p'.out w = (p'.done u w).filter (fun step => p'.accepts step.1) ∨
      (p'.Wavers u ∧ w ∈ p'.belief.expanded ∧ p'.out w = []) := by
  have haccepts : (fun step : Turn × State => p'.accepts step.1) = fun step => p.accepts step.1 :=
    funext fun step => h.alike.accepts step.1
  rw [h.out hcut, haccepts]
  by_cases hw : w ∈ p.belief.worlds
  · have hdone : p'.done u w = q.done u w := by
      simp only [Place.done, h.mem_expanded hcut, hw, and_true]
    rw [if_pos hw, hdone]
    rcases hq.out w with hout | ⟨hwavers, hin, hout⟩
    · rw [hout]
      rcases hcut.filter_accepts (q.done u w) with hsame | ⟨hwavers, hnil⟩
      · exact .inl hsame
      · by_cases hin : w ∈ q.belief.expanded
        · exact .inr ⟨h.alike.wavers hwavers, (h.mem_expanded hcut).2 ⟨hin, hw⟩, hnil⟩
        · exact .inl (by simp [Place.done, hin])
    · exact .inr ⟨h.alike.wavers (hcut.wavers hwavers), (h.mem_expanded hcut).2 ⟨hin, hw⟩,
        by rw [hout]; rfl⟩
  · have hdone : p'.done u w = [] := by
      simp only [Place.done, h.mem_expanded hcut, hw, and_false, if_false]
    rw [if_neg hw, hdone]
    exact .inl rfl

/-- A child that was narrowed down is the child of the trimmed place. -/
lemma Trimmed.childOf (h : p.Trimmed p') (hcut : Untrimmed u q p) {o : Observation}
    {next next' : State → Prop} (hof : ChildOf u id q o next c) (hakin : c.Akin c')
    (hworlds : ∀ s, s ∈ c'.belief.worlds ↔ next' s) : ChildOf u id p' o next' c' where
  parent := hakin.parent.trans hof.parent
  depth := by rw [hakin.depth, hof.depth, h.alike.depth, hcut.depth]
  role := by rw [hakin.role, hof.role, h.alike.role, hcut.role]
  move := hakin.move.trans hof.move
  isComplete := by rw [hakin.isComplete, hof.isComplete, h.alike.isComplete, hcut.isComplete]
  standing := hakin.standing.trans hof.standing
  worlds := hworlds
  history hr := by
    rw [hakin.history, hof.history hr, h.alike.history, hcut.history, h.alike.depth, hcut.depth,
      h.alike.role, hcut.role]

/-- Once the children have been narrowed down to what the retained edges lead to, a place is
sound. -/
theorem Trimmed.sound (h : p.Trimmed p') (hcut : Untrimmed u q p) (hq : q.Sound u T id)
    (hchild : ∀ e ∈ p'.edgeList, ∀ c, T e.child = some c → ∃ c', T' e.child = some c' ∧ c.Akin c' ∧
      ∀ s, s ∈ c'.belief.worlds ↔ p'.LeadsTo e.child s) : p'.Sound u T' id where
  keyed e he := by
    obtain ⟨w, hw⟩ := hq.keyed e (h.mem_edgeList hcut he)
    exact ⟨w, by rw [hw, h.alike.keyOf, hcut.keyOf]⟩
  expanded w hw := by
    rw [h.alike.worlds]
    exact ((h.mem_expanded hcut).1 hw).2
  pristine hnone w hw := by
    have hnone' := h.pristine hnone
    rw [hcut.edges] at hnone'
    exact hq.pristine hnone' w ((h.mem_expanded hcut).1 hw).1
  out := h.out_done hcut hq
  bucket e he := by
    rw [h.alike.seen, hcut.seen, h.buckets, hcut.buckets]
    exact ⟨hq.bucket e (h.mem_edgeList hcut he), e, he, rfl⟩
  used o child hbucket := by
    rw [h.buckets, hcut.buckets] at hbucket
    obtain ⟨hbucket, e, he, rfl⟩ := hbucket
    obtain ⟨x, hx, rfl, hchild⟩ := hq.edge_of_bucket hbucket
    exact ⟨e, he, by
      rw [h.alike.seen, hcut.seen, hq.same e (h.mem_edgeList hcut he) x hx hchild.symm]⟩
  same e he e' he' heq := by
    rw [h.alike.seen, h.alike.seen, hcut.seen, hcut.seen]
    exact hq.same e (h.mem_edgeList hcut he) e' (h.mem_edgeList hcut he') heq
  child e he := by
    obtain ⟨c, hc, hof⟩ := hq.child e (h.mem_edgeList hcut he)
    obtain ⟨c', hc', hakin, hworlds⟩ := hchild e he c hc
    rw [h.alike.seen, hcut.seen]
    exact ⟨c', hc', h.childOf hcut hof hakin hworlds⟩

end Place

namespace Arena

variable {R : Type} {u : Upkeep} {but : NodeId → Prop} {a a' : Arena R} {id : NodeId}
  {p p' q c : Place} {e : Edge} {height : Nat} {narrow : NodeId → StateSet → Action (Arena R) Unit}

/-- A way of narrowing places down keeps a forest sound, but for those above the place that is
narrowed, as long as no path from it is longer than `height`. -/
def Restricts (u : Upkeep) (height : Nat) (narrow : NodeId → StateSet → Action (Arena R) Unit) :
    Prop :=
  ∀ (but : NodeId → Prop) (a : Arena R) (id : NodeId) (p : Place) (allowed : StateSet),
    a.Sound u but → a.place? id = some p → Forest.HeightBelow a.place? height id →
    Forest.Isolated but id p.depth a.place? → (∃ w ∈ p.belief.worlds, w ∈ allowed) →
    ∃ a' p', narrow id allowed a = .ok ⟨⟩ a' ∧ a'.Sound u but ∧ a'.place? id = some p' ∧
      p.Akin p' ∧ (∀ w, w ∈ p'.belief.worlds ↔ w ∈ p.belief.worlds ∧ w ∈ allowed) ∧
      Forest.Shrinks id p.role p.depth a.place? a'.place?

/-- The edges and the buckets of a place are trimmed. -/
lemma retain_yields (hsane : a.Sane) (hp : a.place? id = some p)
    (hkeyed : ∀ e ∈ p.edgeList, ∃ w, e.key = p.keyOf w e.turn) {edges : Array Edge}
    (hedges : p.edges = some edges) (v : Option (Valuation R)) :
    let kept := edges.filter fun e =>
      e.key.world.any p.belief.worlds.contains && (p.toNode v).isCommitted e
    ∃ a₁ a₂ p', change id (fun n => { n with edges := some kept }) a = .ok ⟨⟩ a₁ ∧
      changeBelief id (fun b =>
        { b with buckets := b.buckets.filter fun _ child => (statesByChild kept).contains child }) a₁
        = .ok ⟨⟩ a₂ ∧
      a₂.Sane ∧ a₂.place? = Function.update a.place? id (some p') ∧ p.Trimmed p' ∧
      kept.toList = p'.edgeList := by
  intro kept
  obtain ⟨a₁, hrun₁, hsane₁, hplaces₁⟩ := changeEdges_yields (fun _ => some kept) hsane hp
  have hself : a₁.place? id = some { p with edges := some kept } := by
    rw [hplaces₁, Function.update_self]
  obtain ⟨a₂, hrun₂, hsane₂, hplaces₂⟩ := changeBelief_yields
    (fun b => { b with buckets := b.buckets.filter fun _ child =>
      (statesByChild kept).contains child }) hsane₁ hself
  refine ⟨a₁, a₂, _, hrun₁, hrun₂, hsane₂, by rw [hplaces₂, hplaces₁, Function.update_idem], ?_, rfl⟩
  refine ⟨⟨⟨rfl, rfl, rfl, rfl, rfl, rfl, rfl⟩, rfl⟩, rfl, ?_, fun hnone => ?_, fun o child => ?_⟩
  · have hlist := Place.edgeList_of_some hedges
    change kept.toList = _
    rw [Array.toList_filter, ← hlist]
    refine List.filter_congr fun e he => ?_
    obtain ⟨w, hkey⟩ := hkeyed e he
    rw [Place.retains, Node.isCommitted_toNode hkey]
  · cases hnone
  · change (p.belief.buckets.filter _)[o]? = some child ↔ _ ∧ ∃ e ∈ kept.toList, e.child = child
    rw [Std.HashMap.getElem?_filter', Option.filter_eq_some_iff, contains_statesByChild]

/-- The edges of a place have been trimmed, and some of its children have been narrowed down to what
these edges lead to. -/
structure Pending (u : Upkeep) (but : NodeId → Prop) (id : NodeId) (p' : Place)
    (narrowed : NodeId → Prop) (a b : Arena R) : Prop where
  sound : b.Sound u fun x => but x ∨ x = id
  place : b.place? id = some p'
  shrinks : Forest.Shrinks id p'.role p'.depth a.place? b.place?
  child : ∀ e ∈ p'.edgeList, ∀ c, a.place? e.child = some c → ∃ c', b.place? e.child = some c' ∧
    c.Akin c' ∧ (narrowed e.child ∧ (∀ s, s ∈ c'.belief.worlds ↔ p'.LeadsTo e.child s) ∨
      ¬narrowed e.child ∧ c' = c)

/-- Once its edges are trimmed, none of the children of a place has been narrowed down. -/
lemma pending_start {b : Arena R} {narrowed : NodeId → Prop} (h : a.Sound u fun x => but x ∨ x = id)
    (hp : a.place? id = some p) (hsane : b.Sane)
    (hplaces : b.place? = Function.update a.place? id (some p')) (htrimmed : p.Trimmed p')
    (hnone : ∀ k, ¬narrowed k) : Pending u but id p' narrowed a b := by
  have hsub : ∀ e ∈ p'.edgeList, e ∈ p.edgeList := fun e he => (htrimmed.mem.1 he).1
  refine ⟨?_, by rw [hplaces, Function.update_self], ?_,
    fun e he c hc => ⟨c, ?_, .refl c, .inr ⟨hnone _, rfl⟩⟩⟩
  · refine (h.touch hp hsane hplaces htrimmed.alike.depth htrimmed.alike.role
      (htrimmed.alike.toAkin.known (h.known id p hp) fun s hs => htrimmed.alike.worlds ▸ hs)
      hsub (.inl htrimmed.alike)).mono fun x hx => ?_
    tauto
  · rw [hplaces]
    exact .update hp htrimmed.alike.toAkin hsub
  · rw [hplaces, Function.update_of_ne (h.child_ne hp (hsub e he)), hc]

section Narrowing

variable (hnarrow : Restricts u height narrow) (hp : a.place? id = some p) (htrimmed : p.Trimmed p')
  (hcut : q.Untrimmed u p) (hq : q.Sound u a.place? id) (hheight : Forest.HeightBelow a.place? (height + 1) id)
  (hbut : ∀ x q, but x → a.place? x = some q → q.depth < p.depth)

include hnarrow hp htrimmed hcut hq hheight hbut

lemma Pending.narrowNext {b : Arena R} {narrowed : NodeId → Prop} {states : StateSet}
    (h : Pending u but id p' narrowed a b) (he : e ∈ p'.edgeList) (hnew : ¬narrowed e.child)
    (hstates : ∀ s, s ∈ states ↔ p'.LeadsTo e.child s) :
    ∃ b', narrow e.child states b = .ok ⟨⟩ b' ∧
      Pending u but id p' (fun k => narrowed k ∨ k = e.child) a b' := by
  obtain ⟨c, hc, hparent, hdepth, hrole, hworlds⟩ := htrimmed.child hcut hq he
  have hcb : b.place? e.child = some c := by
    obtain ⟨c', hc', -, hcase⟩ := h.child e he c hc
    rcases hcase with ⟨hin, -⟩ | ⟨-, rfl⟩
    · exact absurd hin hnew
    · exact hc'
  have hin : ∀ s ∈ states, s ∈ c.belief.worlds := fun s hs => hworlds s ((hstates s).1 hs)
  have hnext : e.next ∈ states := (hstates _).2 ⟨e, he, rfl, rfl⟩
  obtain ⟨b', c', hrun, hsound, hc', hakin, hworlds', hshrinks⟩ := hnarrow (fun x => but x ∨ x = id) b
    e.child c states h.sound hcb
    ((hheight p hp e (htrimmed.mem.1 he).1).congr h.shrinks.thins)
    (h.sound.isolated_child h.place hcb hparent hdepth fun x r hx hr => by
      obtain ⟨d, hd, hdr, -⟩ := h.shrinks.thins x r hr
      rw [hdr, htrimmed.alike.depth]
      exact hbut x d hx hd)
    ⟨e.next, hin _ hnext, hnext⟩
  refine ⟨b', hrun, hsound, ?_, ?_, ?_⟩
  · have hne : id ≠ e.child := by
      intro heq
      rw [← heq, h.place, Option.some.injEq] at hcb
      rw [← hcb] at hdepth
      omega
    exact hshrinks.keep h.place hne (by omega)
  · refine h.shrinks.trans (Forest.Shrinks.lift ?_ hcb hrole hdepth)
    rw [← hrole, ← hdepth]
    exact hshrinks
  · intro x hx d hd
    by_cases heq : x.child = e.child
    · rw [heq, hc, Option.some.injEq] at hd
      rw [heq, ← hd]
      refine ⟨c', hc', hakin, .inl ⟨.inr rfl, fun s => ?_⟩⟩
      rw [hworlds', ← hstates]
      exact ⟨fun hs => hs.2, fun hs => ⟨hin s hs, hs⟩⟩
    · -- The other children are as deep as this one, and so are not below it.
      obtain ⟨d', hd', hakin', hcase⟩ := h.child x hx d hd
      obtain ⟨d₀, hd₀, -, hddepth, -⟩ := htrimmed.child hcut hq hx
      rw [hd, Option.some.injEq] at hd₀
      have hle : d'.depth ≤ c.depth := by
        rw [hakin'.depth, hd₀, hddepth, hdepth]
      refine ⟨d', hshrinks.keep hd' heq hle, hakin', ?_⟩
      rcases hcase with ⟨hnarrowed, hstates'⟩ | ⟨hnot, rfl⟩
      · exact .inl ⟨.inl hnarrowed, hstates'⟩
      · exact .inr ⟨not_or.2 ⟨hnot, heq⟩, rfl⟩

/-- The children of a place are narrowed down one after another, and none of them is left out. -/
lemma Pending.narrowAll {b : Arena R} {kept : Array Edge} (hkept : kept.toList = p'.edgeList)
    (h : Pending u but id p' (· ∈ ([] : List (NodeId × StateSet)).map Prod.fst) a b) :
    ∃ narrowed b', forIn (m := Action (Arena R)) (statesByChild kept).toList PUnit.unit (fun x _ => do
        narrow x.1 x.2
        pure (ForInStep.yield PUnit.unit)) b = .ok ⟨⟩ b' ∧
      (∀ e ∈ p'.edgeList, narrowed e.child) ∧ Pending u but id p' narrowed a b' := by
  have hkeys : (statesByChild kept).toList.map Prod.fst = (statesByChild kept).keys :=
    Std.ExtTreeMap.map_fst_toList_eq_keys
  obtain ⟨_, b', hrun, hpending⟩ := @Action.forIn_yields _ _ _ (statesByChild kept).toList
    (fun x _ => do narrow x.1 x.2; pure (ForInStep.yield PUnit.unit))
    (fun before _ b => Pending u but id p' (· ∈ before.map Prod.fst) a b)
    (by
      rintro before ⟨k, states⟩ after ⟨⟩ b hlist hpending
      have hin : (k, states) ∈ (statesByChild kept).toList := by
        rw [hlist]
        exact List.mem_append_right _ List.mem_cons_self
      obtain ⟨⟨e, he, rfl⟩, hstates⟩ := mem_toList_statesByChild hin
      have hnew : e.child ∉ before.map Prod.fst := by
        have hnodup := Std.ExtTreeMap.nodup_keys (t := statesByChild kept)
        rw [← hkeys, hlist, List.map_append, List.map_cons, List.nodup_append] at hnodup
        exact fun hmem => hnodup.2.2 _ hmem _ List.mem_cons_self rfl
      rw [hkept] at he hstates
      obtain ⟨b', hrun, hpending'⟩ :=
        hpending.narrowNext hnarrow hp htrimmed hcut hq hheight hbut he hnew hstates
      refine ⟨⟨⟩, b', ?_, ?_⟩
      · rw [Action.bind_of_ok hrun]
        rfl
      · simpa using hpending')
    ⟨⟩ b h
  refine ⟨_, b', hrun, fun e he => ?_, hpending⟩
  rw [hkeys, Std.ExtTreeMap.mem_keys]
  exact contains_statesByChild.2 ⟨e, by rw [hkept]; exact he, rfl⟩

end Narrowing

/-- Trimming makes a place sound again. -/
theorem trimWith_yields (hnarrow : Restricts u height narrow) (h : a.Sound u fun x => but x ∨ x = id)
    (hp : a.place? id = some p) (hcut : q.Untrimmed u p) (hq : q.Sound u a.place? id)
    (hheight : Forest.HeightBelow a.place? (height + 1) id)
    (hbut : ∀ x q, but x → a.place? x = some q → q.depth < p.depth) :
    ∃ a' p', trimWith narrow id a = .ok ⟨⟩ a' ∧ a'.Sound u but ∧ a'.place? id = some p' ∧
      p.Trimmed p' ∧ Forest.Shrinks id p.role p.depth a.place? a'.place? := by
  obtain ⟨v, hnode⟩ := node_run hp
  rw [trimWith, Action.bind_of_ok hnode, Action.bind_of_ok (belief_run hp)]
  cases hedges : p.edges with
  | none =>
    simp only [Place.toNode_edges, hedges]
    have htrimmed := hcut.trimmed_self hq hedges
    refine ⟨a, p, rfl, h.settle hp (htrimmed.sound hcut hq fun e he => ?_), hp, htrimmed, .refl⟩
    simp [Place.edgeList, hedges] at he
  | some edges =>
    have hkeyed : ∀ e ∈ p.edgeList, ∃ w, e.key = p.keyOf w e.turn := by
      intro e he
      obtain ⟨w, hw⟩ := hq.keyed e (hcut.edgeList ▸ he)
      exact ⟨w, by rw [hw, hcut.keyOf]⟩
    obtain ⟨a₁, a₂, p', hrun₁, hrun₂, hsane₂, hplaces₂, htrimmed, hkept⟩ :=
      retain_yields h.sane hp hkeyed hedges v
    obtain ⟨narrowed, b, hrun, hall, hpending⟩ := Pending.narrowAll hnarrow hp htrimmed hcut hq hheight hbut
      hkept (pending_start h hp hsane₂ hplaces₂ htrimmed (by simp))
    simp only [Place.toNode_edges, hedges]
    rw [Action.bind_of_ok hrun₁, Action.bind_of_ok hrun₂]
    refine ⟨b, p', ?_, hpending.sound.settle hpending.place ?_, hpending.place, htrimmed, ?_⟩
    · rw [Action.bind_of_ok hrun]
      rfl
    · refine htrimmed.sound hcut hq fun e he c hc => ?_
      obtain ⟨c', hc', hakin, hcase⟩ := hpending.child e he c hc
      rcases hcase with ⟨-, hworlds⟩ | ⟨hnot, -⟩
      · exact ⟨c', hc', hakin, hworlds⟩
      · exact absurd (hall e he) hnot
    · have hshrinks := hpending.shrinks
      rwa [htrimmed.alike.role, htrimmed.alike.depth] at hshrinks

/-- A belief does not get narrower if all its worlds are allowed. -/
lemma restrictWithin_all (hp : a.place? id = some p) {allowed : StateSet}
    (hall : ∀ w ∈ p.belief.worlds, w ∈ allowed) : restrictWithin (height + 1) id allowed a = .ok ⟨⟩ a := by
  have hsame : p.belief.worlds.filter allowed.contains = p.belief.worlds :=
    StateSet.ext_iff_mem.2 fun w => StateSet.mem_filter_contains.trans (and_iff_left_of_imp (hall w))
  rw [restrictWithin, Action.bind_of_ok (belief_run hp)]
  simp only [hsame, p.belief.nonempty, dite_true, if_true]
  rfl

theorem restrictWithin_restricts (u : Upkeep) (height : Nat) :
    Restricts u height (restrictWithin (R := R) height) := by
  induction height with
  | zero => exact fun _ _ _ _ _ _ _ hheight => hheight.elim
  | succ height ih =>
    intro but a id p allowed h hp hheight hisolated hmeets
    have hid : ¬but id := hisolated.not_but hp
    have hne : (p.belief.worlds.filter allowed.contains).isEmpty = false := by
      obtain ⟨w, hw, hallowed⟩ := hmeets
      exact StateSet.isEmpty_eq_false_iff.2 ⟨w, StateSet.mem_filter_contains.2 ⟨hw, hallowed⟩⟩
    by_cases hsize : (p.belief.worlds.filter allowed.contains).size = p.belief.worlds.size
    · have hsame := StateSet.eq_of_subset_of_size_eq
        (fun w hw => (StateSet.mem_filter_contains.1 hw).1) hsize
      have hall : ∀ w ∈ p.belief.worlds, w ∈ allowed := fun w hw =>
        (StateSet.mem_filter_contains.1 (hsame.symm ▸ hw)).2
      exact ⟨a, p, restrictWithin_all hp hall, h, hp, .refl p, fun w => (and_iff_left_of_imp (hall w)).symm, .refl⟩
    · rw [restrictWithin, Action.bind_of_ok (belief_run hp)]
      simp only [hne, dite_true]
      rw [if_neg hsize]
      obtain ⟨a₁, hrun₁, hsane₁, hplaces₁⟩ := changeBelief_yields
        (·.narrow (p.belief.worlds.filter allowed.contains) hne) h.sane hp
      let p₁ : Place :=
        { p with belief := p.belief.narrow (p.belief.worlds.filter allowed.contains) hne }
      have hself : a₁.place? id = some p₁ := by rw [hplaces₁, Function.update_self]
      have hakin : p.Akin p₁ := ⟨rfl, rfl, rfl, rfl, rfl, rfl, rfl⟩
      have hworlds : ∀ w ∈ p₁.belief.worlds, w ∈ p.belief.worlds :=
        fun w hw => (StateSet.mem_filter_contains.1 hw).1
      have hshrinks₁ : Forest.Shrinks id p.role p.depth a.place? a₁.place? := by
        rw [hplaces₁]
        exact .update hp hakin fun _ he => he
      have hcut : p.Untrimmed u p₁ := ⟨rfl, rfl, rfl, rfl, rfl, rfl, rfl, rfl, hworlds,
        fun w => StateSet.mem_filter_contains, .inr (.inl rfl)⟩
      have hsound : p.Sound u a₁.place? id := by
        refine (h.kept id p hp hid).congr fun e he c hc => ⟨c, ?_, .refl c⟩
        rw [hplaces₁, Function.update_of_ne (h.child_ne hp he), hc]
      -- The children are narrowed down with less fuel, which is enough one level below.
      obtain ⟨a', p', hrun, hsound', hp', htrimmed, hshrinks⟩ := trimWith_yields ih
        (h.touch hp hsane₁ hplaces₁ rfl rfl (hakin.known (h.known id p hp) hworlds) (fun _ he => he)
          (.inr hisolated.leads)) hself hcut hsound (hheight.congr hshrinks₁.thins)
        (hisolated.congr hshrinks₁.thins).above
      refine ⟨a', p', ?_, hsound', hp', hakin.trans htrimmed.alike.toAkin, fun w => ?_,
        hshrinks₁.trans hshrinks⟩
      · rw [Action.bind_of_ok hrun₁]
        exact hrun
      · rw [htrimmed.alike.worlds]
        exact StateSet.mem_filter_contains

/-- A belief gets narrower. -/
theorem restrict_yields (h : a.Sound u but) (hp : a.place? id = some p) {allowed : StateSet}
    (hisolated : Forest.Isolated but id p.depth a.place?)
    (hmeets : ∃ w ∈ p.belief.worlds, w ∈ allowed) :
    ∃ a' p', restrict id allowed a = .ok ⟨⟩ a' ∧ a'.Sound u but ∧ a'.place? id = some p' ∧
      p.Akin p' ∧ (∀ w, w ∈ p'.belief.worlds ↔ w ∈ p.belief.worlds ∧ w ∈ allowed) ∧
      Forest.Shrinks id p.role p.depth a.place? a'.place? :=
  restrictWithin_restricts u (a.slots.size + 1) but a id p allowed h hp (h.heightBelow hp)
    hisolated hmeets

/-- Trimming after worlds were lost or the owner was committed. -/
theorem trimBelief_yields (h : a.Sound u fun x => but x ∨ x = id) (hp : a.place? id = some p)
    (hcut : q.Untrimmed u p) (hq : q.Sound u a.place? id)
    (hbut : ∀ x q, but x → a.place? x = some q → q.depth < p.depth) :
    ∃ a' p', trimBelief id a = .ok ⟨⟩ a' ∧ a'.Sound u but ∧ a'.place? id = some p' ∧ p.Trimmed p' ∧
      Forest.Shrinks id p.role p.depth a.place? a'.place? := by
  obtain ⟨a', p', hrun, hrest⟩ := trimWith_yields (restrictWithin_restricts u (a.slots.size + 1)) h hp
    hcut hq (Forest.HeightBelow.step (h.heightBelow hp)) hbut
  exact ⟨a', p', hrun, hrest⟩

end Arena

end GameSearch
