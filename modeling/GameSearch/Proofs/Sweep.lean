import Mathlib.Data.Fintype.Card
import GameSearch.Proofs.Arena

/-!
# Reachability and sweeping

`Arena.reachable` finds just the nodes that edges lead to from the roots: every edge of a node that
was looked at leads to a node that was found, and as no number is found twice, the fuel lasts until
all of them were looked at.  From this follows what a sweep keeps.
-/

namespace GameSearch.Arena

variable {R : Type} {a : Arena R} {id other root : NodeId} {roots : List NodeId} {n : Node R}

/-! ## The search -/

/-- The children of the nodes found first, `i` of them, have been found as well. -/
def LookedAt (a : Arena R) (i : Nat) (found : Found) : Prop :=
  ∀ j id, j < i → found.order[j]? = some id → ∀ e ∈ a.edgesOf id, e.child ∈ found.order.toList

lemma length_le_of_nodup_of_live {l : List NodeId} (hnodup : l.Nodup)
    (hlive : ∀ id ∈ l, a.contains id = true) : l.length ≤ a.slots.size := by
  have hsub : l.toFinset ⊆ Finset.range a.slots.size := by
    intro id hid
    obtain ⟨n, hn⟩ := contains_iff.1 (hlive id (by simpa using hid))
    simpa using lt_size_of_find? hn
  calc l.length = l.toFinset.card := (List.toFinset_card_of_nodup hnodup).symm
    _ ≤ (Finset.range a.slots.size).card := Finset.card_le_card hsub
    _ = a.slots.size := Finset.card_range _

lemma followEdges_step {fuel i : Nat} {found : Found} (h : found.order[i]? = some id) :
    a.followEdges (fuel + 1) i found =
      a.followEdges fuel (i + 1) (found.noteAll ((a.edgesOf id).map Edge.child)) := by
  rw [followEdges, h]
  simp only [Found.foldl_note_eq, edgesOf]

lemma getElem?_order_noteAll {found : Found} {j : Nat} (ids : List NodeId)
    (h : found.order[j]? = some id) : (found.noteAll ids).order[j]? = some id := by
  rw [← Array.getElem?_toList] at h ⊢
  obtain ⟨rest, hrest⟩ := found.order_noteAll_prefix ids
  rw [← hrest, List.getElem?_append_left]
  · exact h
  · exact (List.getElem?_eq_some_iff.1 h).1

lemma mem_noteAll_children {found : Found} (hf : found.Faithful) {x : NodeId} :
    x ∈ (found.noteAll ((a.edgesOf id).map Edge.child)).order.toList ↔
      x ∈ found.order.toList ∨ ∃ e ∈ a.edgesOf id, e.child = x := by
  rw [hf.mem_noteAll, List.mem_map]

/-- Once the children of the next node are found, one more node has been looked at. -/
lemma LookedAt.next {i : Nat} {found : Found} (h : a.LookedAt i found) (hf : found.Faithful)
    (hid : found.order[i]? = some id) :
    a.LookedAt (i + 1) (found.noteAll ((a.edgesOf id).map Edge.child)) := by
  intro j x hj hx e he
  have hlt : i < found.order.size := (Array.getElem?_eq_some_iff.1 hid).1
  have hold : found.order[j]? = some (found.order[j]) := Array.getElem?_eq_getElem (by omega)
  have hsame : found.order[j] = x := by
    have := getElem?_order_noteAll ((a.edgesOf id).map Edge.child) hold
    exact Option.some.inj (this.symm.trans hx)
  rw [hsame] at hold
  rw [mem_noteAll_children hf]
  rcases Nat.lt_succ_iff_lt_or_eq.1 hj with hj | rfl
  · exact .inl (h j x hj hold e he)
  · rw [hid] at hold
    exact .inr ⟨e, by rw [Option.some.inj hold]; exact he, rfl⟩

/-- With enough fuel, following the edges finds all that they lead to, and nothing else. -/
theorem followEdges_spec (hclosed : a.Closed) {fuel i : Nat} {found : Found} (hf : found.Faithful)
    (hlive : ∀ id ∈ found.order.toList, a.contains id = true) (hi : i ≤ found.order.size)
    (hfuel : a.slots.size < fuel + i) (hlooked : a.LookedAt i found) :
    let result := a.followEdges fuel i found
    result.Faithful ∧ (∀ id ∈ found.order.toList, id ∈ result.order.toList) ∧
      (∀ id ∈ result.order.toList, ∀ e ∈ a.edgesOf id, e.child ∈ result.order.toList) ∧
      ∀ id ∈ result.order.toList, ∃ r ∈ found.order.toList, a.Leads r id := by
  -- The fuel lasts: what is found is live and is found once, and `i` of it has been looked at.
  induction fuel generalizing i found with
  | zero =>
    have := length_le_of_nodup_of_live hf.nodup hlive
    rw [Array.length_toList] at this
    omega
  | succ fuel ih =>
    cases hid : found.order[i]? with
    | none =>
      have hsize : found.order.size ≤ i := by simpa using hid
      refine ⟨?_, ?_, ?_, ?_⟩ <;> simp only [followEdges, hid]
      · exact hf
      · exact fun _ h => h
      · intro id hmem
        obtain ⟨j, hj⟩ := List.getElem?_of_mem hmem
        rw [Array.getElem?_toList] at hj
        have hlt : j < found.order.size := (Array.getElem?_eq_some_iff.1 hj).1
        exact hlooked j id (by omega) hj
      · exact fun id h => ⟨id, h, .refl⟩
    | some id =>
      have hmem : id ∈ found.order.toList := by
        rw [← Array.getElem?_toList] at hid
        exact List.mem_of_getElem? hid
      have hlt : i < found.order.size := (Array.getElem?_eq_some_iff.1 hid).1
      have hsize : found.order.size ≤ (found.noteAll ((a.edgesOf id).map Edge.child)).order.size := by
        simpa using (found.order_noteAll_prefix _).length_le
      have hlive' : ∀ x ∈ (found.noteAll ((a.edgesOf id).map Edge.child)).order.toList,
          a.contains x = true := by
        intro x hx
        rcases (mem_noteAll_children hf).1 hx with hx | ⟨e, he, rfl⟩
        · exact hlive x hx
        · exact hclosed id e he
      obtain ⟨hfaithful, hkept, hdone, hled⟩ := ih (hf.noteAll _) hlive'
        (Nat.le_trans (Nat.succ_le_of_lt hlt) hsize) (by omega) (hlooked.next hf hid)
      rw [followEdges_step hid]
      refine ⟨hfaithful, fun x hx => hkept x ((mem_noteAll_children hf).2 (.inl hx)), hdone,
        fun x hx => ?_⟩
      obtain ⟨r, hr, hleads⟩ := hled x hx
      rcases (mem_noteAll_children hf).1 hr with hr | ⟨e, he, rfl⟩
      · exact ⟨r, hr, hleads⟩
      · exact ⟨id, hmem, (Leads.refl.step he).trans hleads⟩

/-- The nodes found from some roots are those that edges lead to from them. -/
theorem mem_reachable (hclosed : a.Closed) (roots : List NodeId) :
    (a.reachable roots).Faithful ∧ ∀ id, id ∈ (a.reachable roots).order.toList ↔
      ∃ r ∈ roots, a.contains r = true ∧ a.Leads r id := by
  have hstart : ∀ x, x ∈ (Found.noteAll {} (roots.filter a.contains)).order.toList ↔
      x ∈ roots ∧ a.contains x = true := fun x => by
    rw [Found.faithful_empty.mem_noteAll]
    simp
  have hfuel : a.slots.size < a.slots.size + 1 + 0 := by omega
  obtain ⟨h1, h2, h3, h4⟩ := followEdges_spec hclosed
    (Found.faithful_empty.noteAll (roots.filter a.contains)) (fun x hx => ((hstart x).1 hx).2)
    (Nat.zero_le _) hfuel fun _ _ hj => absurd hj (Nat.not_lt_zero _)
  refine ⟨h1, fun x => ⟨fun hx => ?_, ?_⟩⟩
  · obtain ⟨r, hr, hleads⟩ := h4 x hx
    exact ⟨r, ((hstart r).1 hr).1, ((hstart r).1 hr).2, hleads⟩
  · rintro ⟨r, hr, hlive, hleads⟩
    induction hleads with
    | refl => exact h2 r ((hstart r).2 ⟨hr, hlive⟩)
    | step _ he ih => exact h3 _ ih _ he

/-! ## The sweep -/

lemma find?_remove : (a.remove id).find? other = if other = id then none else a.find? other := by
  simp only [find?, remove, Array.getElem?_setIfInBounds]
  by_cases h : other = id
  · subst h
    by_cases hlt : other < a.slots.size <;> simp [hlt]
  · simp [h, Ne.symm h]

lemma find?_foldl_remove {ids : List NodeId} :
    (ids.foldl remove a).find? other = if other ∈ ids then none else a.find? other := by
  induction ids generalizing a with
  | nil => simp
  | cons id ids ih =>
    rw [List.foldl_cons, ih, find?_remove]
    by_cases h : other = id <;> by_cases h' : other ∈ ids <;> simp [h, h']

lemma Orderly.remove (h : a.Orderly) (hid : a.find? id = some n) : (a.remove id).Orderly := by
  constructor
  · intro x hx
    rcases List.mem_cons.1 hx with rfl | hx
    · exact ⟨by simpa [Arena.remove] using lt_size_of_find? hid, by simp [find?_remove]⟩
    · obtain ⟨hlt, hnone⟩ := h.empty x hx
      exact ⟨by simpa [Arena.remove] using hlt, by simp [find?_remove, hnone]⟩
  · refine List.nodup_cons.2 ⟨fun hmem => ?_, h.nodup⟩
    simp [(h.empty id hmem).2] at hid

lemma Orderly.foldl_remove (h : a.Orderly) {ids : List NodeId} (hnodup : ids.Nodup)
    (hlive : ∀ id ∈ ids, a.contains id = true) : (ids.foldl Arena.remove a).Orderly := by
  induction ids generalizing a with
  | nil => exact h
  | cons id ids ih =>
    obtain ⟨hid, hnodup⟩ := List.nodup_cons.1 hnodup
    obtain ⟨n, hn⟩ := contains_iff.1 (hlive id (by simp))
    refine ih (h.remove hn) hnodup fun x hx => ?_
    obtain ⟨m, hm⟩ := contains_iff.1 (hlive x (by simp [hx]))
    refine contains_iff.2 ⟨m, ?_⟩
    rw [find?_remove, if_neg (by rintro rfl; exact hid hx), hm]

/-- A node is kept if edges lead to it from some of the roots. -/
def Kept (a : Arena R) (roots : List NodeId) (id : NodeId) : Prop :=
  ∃ r ∈ roots, a.contains r = true ∧ a.Leads r id

lemma mem_unreachable (hclosed : a.Closed) (roots : List NodeId) :
    id ∈ a.unreachable roots ↔ a.contains id = true ∧ ¬a.Kept roots id := by
  obtain ⟨hfaithful, hmem⟩ := mem_reachable hclosed roots
  rw [Kept, ← hmem id, ← hfaithful.seen id]
  simp only [unreachable, List.mem_filter, List.mem_range, Bool.and_eq_true, Bool.not_eq_true',
    Bool.not_eq_true, and_iff_right_iff_imp, and_imp]
  intro hlive _
  obtain ⟨n, hn⟩ := contains_iff.1 hlive
  exact lt_size_of_find? hn

theorem find?_sweep (hclosed : a.Closed) (roots : List NodeId) :
    (a.Kept roots id → (a.sweep roots).2.find? id = a.find? id) ∧
      (¬a.Kept roots id → (a.sweep roots).2.find? id = none) := by
  have hgone := @mem_unreachable _ _ id hclosed roots
  constructor
  · intro hkept
    rw [sweep, find?_foldl_remove, if_neg fun h => (hgone.1 h).2 hkept]
  · intro hkept
    rw [sweep, find?_foldl_remove]
    split
    · rfl
    · rename_i hnot
      cases hn : a.find? id with
      | none => rfl
      | some n => exact absurd (hgone.2 ⟨contains_iff.2 ⟨n, hn⟩, hkept⟩) hnot

lemma nodup_unreachable (a : Arena R) (roots : List NodeId) : (a.unreachable roots).Nodup :=
  List.nodup_range.filter _

lemma contains_of_mem_unreachable (h : id ∈ a.unreachable roots) : a.contains id = true := by
  simp only [unreachable, List.mem_filter, Bool.and_eq_true] at h
  exact h.2.1

lemma Orderly.sweep (h : a.Orderly) (roots : List NodeId) : (a.sweep roots).2.Orderly :=
  h.foldl_remove (nodup_unreachable a roots) fun _ => contains_of_mem_unreachable

/-! ## The only root -/

/-- A node that is made the only root stays with all that edges lead to from it. -/
theorem reroot_yields (horderly : a.Orderly) (hclosed : a.Closed) (hn : a.find? id = some n) :
    ∃ a', reroot id a = .ok ⟨⟩ a' ∧ a'.Orderly ∧ a'.find? id = some { n with parent := none } ∧
      ∀ x, x ≠ id → (a.Leads id x → a'.find? x = a.find? x) ∧ (¬a.Leads id x → a'.find? x = none) := by
  let b := a.update id fun n => { n with parent := none }
  have hself : b.find? id = some { n with parent := none } := by simp [b, hn]
  have hother : ∀ x, x ≠ id → b.find? x = a.find? x := fun x hx => by simp [b, hx]
  have hedges : ∀ x, b.edgesOf x = a.edgesOf x := by
    intro x
    by_cases hx : x = id
    · rw [hx, edgesOf, hself, edgesOf, hn]
      rfl
    · rw [edgesOf, hother x hx, edgesOf]
  have hclosed' : b.Closed := by
    intro x e he
    obtain ⟨c, hc⟩ := contains_iff.1 (hclosed x e (hedges x ▸ he))
    rw [contains_iff]
    by_cases hchild : e.child = id
    · exact ⟨_, hchild ▸ hself⟩
    · exact ⟨c, (hother _ hchild).trans hc⟩
  have hkept : ∀ x, b.Kept [id] x ↔ a.Leads id x := by
    intro x
    constructor
    · rintro ⟨r, hr, -, hleads⟩
      rw [List.mem_singleton.1 hr] at hleads
      induction hleads with
      | refl => exact .refl
      | step _ he ih => exact ih.step (hedges _ ▸ he)
    · intro hleads
      refine ⟨id, List.mem_singleton_self id, contains_iff.2 ⟨_, hself⟩, ?_⟩
      induction hleads with
      | refl => exact .refl
      | step _ he ih => exact ih.step (hedges _ ▸ he)
  refine ⟨(b.sweep [id]).2, ?_, (horderly.update _).sweep [id], ?_, fun x hx => ⟨fun hleads => ?_, fun hleads => ?_⟩⟩
  · rw [reroot, Action.bind_of_ok]
    · rfl
    · rw [detach, Action.bind_of_ok (node_of_find? hn)]
      rfl
  · rw [(find?_sweep hclosed' [id]).1 ((hkept id).2 .refl), hself]
  · rw [(find?_sweep hclosed' [id]).1 ((hkept x).2 hleads), hother x hx]
  · exact (find?_sweep hclosed' [id]).2 fun h => hleads ((hkept x).1 h)

end GameSearch.Arena
