import Mathlib.Logic.Relation
import GameSearch.Proofs.Tree.Rooting

/-!
# Recycled numbers

An arena gives the numbers of removed nodes out again.  `Arena.Accounted` says that it knows at any time how
many nodes there are and which of its slots are empty; every operation keeps that, whatever happens to the
nodes in the meantime, and every operation that only adds edges to nodes there are keeps the arena closed.
From these two follows that no number is given out twice and that a sweep removes just what has become
unreachable.
-/

namespace GameSearch.Arena

variable {R : Type} {a a' : Arena R} {id other : NodeId} {n : Node R} {ids roots : List NodeId}

/-- The numbers of the nodes. -/
def live (a : Arena R) : Finset NodeId := {id ∈ Finset.range a.slots.size | a.contains id = true}

lemma mem_live : id ∈ a.live ↔ a.contains id = true := by
  simp only [live, Finset.mem_filter, Finset.mem_range, and_iff_right_iff_imp]
  intro hid
  obtain ⟨n, hn⟩ := contains_iff.1 hid
  exact lt_size_of_find? hn

lemma contains_eq_false : a.contains id = false ↔ a.find? id = none := by
  simp [contains]

lemma live_congr (h : ∀ x, a'.contains x = a.contains x) : a'.live = a.live :=
  Finset.ext fun x => by rw [mem_live, mem_live, h]

lemma contains_update (f : Node R → Node R) (x : NodeId) : (a.update id f).contains x = a.contains x := by
  rw [contains, contains, find?_update]
  split
  · rename_i hx
    rw [hx, Option.isSome_map]
  · rfl

/-- The nodes that are still to be removed are there when another one has been removed. -/
lemma contains_remove (hid : id ∉ ids) (hlive : ∀ x ∈ id :: ids, a.contains x = true) :
    ∀ x ∈ ids, (a.remove id).contains x = true := by
  intro x hx
  rw [contains, find?_remove, if_neg (by rintro rfl; exact hid hx)]
  exact hlive x (List.mem_cons_of_mem id hx)

/-- A node more is a number more. -/
lemma live_of_find? (hfind : ∀ other, a'.find? other = if other = id then some n else a.find? other) :
    a'.live = insert id a.live := by
  refine Finset.ext fun x => ?_
  rw [Finset.mem_insert, mem_live, mem_live, contains, contains, hfind]
  by_cases hx : x = id <;> simp [hx]

lemma live_remove : (a.remove id).live = a.live.erase id := by
  refine Finset.ext fun x => ?_
  rw [Finset.mem_erase, mem_live, mem_live, contains, contains, find?_remove]
  by_cases hx : x = id <;> simp [hx]

/-! ## The number of nodes -/

@[simp] lemma size_reserve (a : Arena R) : a.reserve.2.size = a.size := by
  unfold reserve
  split <;> rfl

lemma size_fillSlot (h : a.Orderly) (hsize : a.size = a.live.card) (n : Node R) :
    (a.reserve.2.fillSlot a.reserve.1 n).size = (a.reserve.2.fillSlot a.reserve.1 n).live.card := by
  obtain ⟨hnone, hlt, -, -, hsame⟩ := h.reserve
  have hfind : ∀ other, (a.reserve.2.fillSlot a.reserve.1 n).find? other =
      if other = a.reserve.1 then some n else a.find? other := fun other => by
    rw [find?_fillSlot hlt, hsame]
  have hnew : a.reserve.1 ∉ a.live := fun hid => by
    rw [mem_live, contains, hnone] at hid
    cases hid
  rw [live_of_find? hfind, Finset.card_insert_of_notMem hnew, ← hsize, ← size_reserve a]
  rfl

lemma size_remove (hsize : a.size = a.live.card) (hid : a.contains id = true) :
    (a.remove id).size = (a.remove id).live.card := by
  rw [live_remove, Finset.card_erase_of_mem (mem_live.2 hid), ← hsize]
  rfl

/-! ## The account of the slots -/

/-- The arena knows how many nodes there are, and each of its empty slots once. -/
structure Accounted (a : Arena R) : Prop where
  size : a.size = a.live.card
  free : ∀ id, id ∈ a.free ↔ id < a.slots.size ∧ a.contains id = false
  nodup : a.free.Nodup

lemma accounted_empty : (∅ : Arena R).Accounted := by
  have hlive : (∅ : Arena R).live = ∅ := Finset.ext fun id => by simp [mem_live, contains, find?_empty]
  refine ⟨by rw [hlive]; rfl, fun id => ?_, List.nodup_nil⟩
  simp [EmptyCollection.emptyCollection]

namespace Accounted

lemma orderly (h : a.Accounted) : a.Orderly :=
  ⟨fun id hid => ((h.free id).1 hid).imp_right contains_eq_false.1, h.nodup⟩

lemma congr (h : a.Accounted) (hslots : a'.slots.size = a.slots.size) (hfree : a'.free = a.free)
    (hsize : a'.size = a.size) (hcontains : ∀ id, a'.contains id = a.contains id) : a'.Accounted :=
  ⟨by rw [hsize, h.size, live_congr hcontains], fun id => by rw [hfree, h.free, hslots, hcontains], hfree ▸ h.nodup⟩

lemma update (h : a.Accounted) (f : Node R → Node R) : (a.update id f).Accounted :=
  h.congr (size_slots_update f) rfl rfl (contains_update f)

/-- Setting a number aside takes the number of a slot that is empty or new off the list. -/
lemma free_reserve (h : a.Accounted) (x : NodeId) : x ∈ a.reserve.2.free ↔
    x ≠ a.reserve.1 ∧ x < a.reserve.2.slots.size ∧ a.contains x = false := by
  have hfree := h.free
  have hnodup := h.nodup
  unfold reserve
  cases hlist : a.free with
  | nil =>
    have hfull : ∀ id, id < a.slots.size → a.contains id ≠ false := fun id hlt hnone => by
      simpa [hlist] using (hfree id).2 ⟨hlt, hnone⟩
    simp only [List.not_mem_nil, Array.size_push, false_iff, not_and]
    intro hne hlt
    exact hfull x (Nat.lt_of_le_of_ne (Nat.lt_succ_iff.1 hlt) hne)
  | cons id free =>
    rw [hlist] at hfree hnodup
    simp only [← hfree, List.mem_cons]
    constructor
    · intro hx
      refine ⟨?_, .inr hx⟩
      rintro rfl
      exact (List.nodup_cons.1 hnodup).1 hx
    · rintro ⟨hne, hx⟩
      exact hx.resolve_left hne

/-- Adding a node takes the number of an empty slot or of a new one. -/
lemma add (h : a.Accounted) (hadd : Arena.add (.ok n) a = .ok id a') :
    a'.Accounted ∧ a.contains id = false ∧
      ∀ other, a'.find? other = if other = id then some n else a.find? other := by
  obtain ⟨hnone, hlt, -, horderly, hsame⟩ := h.orderly.reserve
  have hrun : Arena.add (.ok n) a = .ok a.reserve.1 (a.reserve.2.fillSlot a.reserve.1 n) := rfl
  obtain ⟨rfl, rfl⟩ := EStateM.Result.ok.inj (hrun.symm.trans hadd)
  have hfind : ∀ other, (a.reserve.2.fillSlot a.reserve.1 n).find? other =
      if other = a.reserve.1 then some n else a.find? other := fun other => by
    rw [find?_fillSlot hlt, hsame]
  refine ⟨⟨size_fillSlot h.orderly h.size n, fun x => ?_, horderly.nodup⟩, contains_eq_false.2 hnone, hfind⟩
  have hslots : (a.reserve.2.fillSlot a.reserve.1 n).slots.size = a.reserve.2.slots.size := by
    simp [fillSlot]
  rw [contains, hfind, hslots]
  refine (h.free_reserve x).trans ?_
  by_cases hx : x = a.reserve.1 <;> simp [hx, contains]

lemma remove (h : a.Accounted) (hid : a.contains id = true) : (a.remove id).Accounted := by
  obtain ⟨n, hn⟩ := contains_iff.1 hid
  have hslots : (a.remove id).slots.size = a.slots.size := by simp [Arena.remove]
  refine ⟨size_remove h.size hid, fun x => ?_, (h.orderly.remove hn).nodup⟩
  rw [hslots, contains, find?_remove]
  refine List.mem_cons.trans ?_
  rw [h.free x, contains]
  by_cases hx : x = id
  · simp [hx, lt_size_of_find? hn]
  · simp [hx]

lemma foldl_remove (h : a.Accounted) (hnodup : ids.Nodup) (hlive : ∀ id ∈ ids, a.contains id = true) :
    (ids.foldl Arena.remove a).Accounted := by
  induction ids generalizing a with
  | nil => exact h
  | cons id ids ih =>
    obtain ⟨hid, hnodup⟩ := List.nodup_cons.1 hnodup
    exact ih (h.remove (hlive id List.mem_cons_self)) hnodup (contains_remove hid hlive)

lemma sweep (h : a.Accounted) (roots : List NodeId) : (a.sweep roots).2.Accounted :=
  h.foldl_remove (nodup_unreachable a roots) fun _ => contains_of_mem_unreachable

end Accounted

/-! ## Closed arenas -/

lemma closed_empty : (∅ : Arena R).Closed := fun id e he => by simp [edgesOf, find?_empty] at he

lemma Closed.add (hclosed : a.Closed) (hn : ∀ e ∈ n.edgeList, a.contains e.child = true)
    (hfind : ∀ other, a'.find? other = if other = id then some n else a.find? other) : a'.Closed := by
  have hkeep : ∀ x, a.contains x = true → a'.contains x = true := fun x hx => by
    rw [contains, hfind]
    split
    · rfl
    · exact hx
  intro x e he
  rw [edgesOf, hfind] at he
  split at he
  · exact hkeep _ (hn e he)
  · exact hkeep _ (hclosed x e he)

lemma Closed.update {f : Node R → Node R} (hclosed : a.Closed)
    (hf : ∀ n, a.find? id = some n → ∀ e ∈ (f n).edgeList, a.contains e.child = true) :
    (a.update id f).Closed := by
  intro x e he
  rw [contains_update]
  rw [edgesOf, find?_update] at he
  split at he
  · cases hn : a.find? id with
    | none => simp [hn] at he
    | some n =>
      rw [hn] at he
      exact hf n hn e he
  · exact hclosed x e he

/-- What a sweep does: it keeps the nodes that edges lead to from the roots as they are, removes the others,
tells how many they were, and leaves no edge to a number that is not in use. -/
structure Sweeps (a : Arena R) (roots : List NodeId) (count : Nat) (a' : Arena R) : Prop where
  keeps : ∀ id, a.Kept roots id → a'.find? id = a.find? id
  removes : ∀ id, ¬a.Kept roots id → a'.find? id = none
  counts : count = (a.live \ a'.live).card
  closed : a'.Closed

theorem Closed.sweep (hclosed : a.Closed) (roots : List NodeId) :
    a.Sweeps roots (a.sweep roots).1 (a.sweep roots).2 := by
  have hkeeps : ∀ id, a.Kept roots id → (a.sweep roots).2.find? id = a.find? id :=
    fun id => (find?_sweep hclosed roots).1
  have hremoves : ∀ id, ¬a.Kept roots id → (a.sweep roots).2.find? id = none :=
    fun id => (find?_sweep hclosed roots).2
  refine ⟨hkeeps, hremoves, ?_, fun x e he => ?_⟩
  · have hgone : a.live \ (a.sweep roots).2.live = (a.unreachable roots).toFinset := by
      refine Finset.ext fun x => ?_
      rw [Finset.mem_sdiff, List.mem_toFinset, mem_unreachable hclosed, mem_live, mem_live]
      refine and_congr_right fun hx => not_congr ⟨fun hx' => ?_, fun hkept => ?_⟩
      · by_contra hnot
        rw [contains, hremoves x hnot] at hx'
        cases hx'
      · rwa [contains, hkeeps x hkept]
    rw [hgone, List.toFinset_card_of_nodup (nodup_unreachable a roots)]
    rfl
  · by_cases hx : a.Kept roots x
    · obtain ⟨r, hr, hlive, hleads⟩ := hx
      have he' : e ∈ a.edgesOf x := by rwa [edgesOf, hkeeps x ⟨r, hr, hlive, hleads⟩] at he
      rw [contains, hkeeps e.child ⟨r, hr, hlive, hleads.step he'⟩]
      exact hclosed x e he'
    · simp [edgesOf, hremoves x hx] at he

/-! ## Operations -/

/-- One operation of an arena that succeeds.  A node may be given any edges that lead to nodes there are, when
it is added and whenever it is changed. -/
inductive Operation : Arena R → Arena R → Prop
  | add {a a' : Arena R} {n : Node R} {id : NodeId} (hn : ∀ e ∈ n.edgeList, a.contains e.child = true)
      (hadd : Arena.add (.ok n) a = .ok id a') : Operation a a'
  | change {a a' : Arena R} {id : NodeId} {f : Node R → Node R}
      (hf : ∀ n, a.find? id = some n → ∀ e ∈ (f n).edgeList, a.contains e.child = true)
      (hchange : Arena.change id f a = .ok ⟨⟩ a') : Operation a a'
  | detach {a a' : Arena R} {id : NodeId} (hdetach : Arena.detach id a = .ok ⟨⟩ a') : Operation a a'
  | sweep {a : Arena R} (roots : List NodeId) : Operation a (a.sweep roots).2
  | reroot {a a' : Arena R} {id : NodeId} (hreroot : Arena.reroot id a = .ok ⟨⟩ a') : Operation a a'
  | clear {a a' : Arena R} (hclear : (set (∅ : Arena R) : Action (Arena R) PUnit) a = .ok ⟨⟩ a') :
      Operation a a'

lemma Closed.detached (hclosed : a.Closed) : (a.update id Node.detached).Closed := by
  refine hclosed.update fun n hn e he => ?_
  have he' : e ∈ a.edgesOf id := by rwa [edgesOf_of_find? hn]
  exact hclosed id e he'

lemma Operation.keeps (hop : Operation a a') (h : a.Accounted) (hclosed : a.Closed) :
    a'.Accounted ∧ a'.Closed := by
  cases hop with
  | add hn hadd =>
    obtain ⟨haccounted, -, hfind⟩ := h.add hadd
    exact ⟨haccounted, hclosed.add hn hfind⟩
  | change hf hchange =>
    cases hchange
    exact ⟨h.update _, hclosed.update hf⟩
  | detach hdetach =>
    obtain ⟨n, -, rfl⟩ := detach_eq_ok hdetach
    exact ⟨h.update _, hclosed.detached⟩
  | sweep roots => exact ⟨h.sweep roots, (hclosed.sweep roots).closed⟩
  | reroot hreroot =>
    obtain ⟨_, a₁, hdetach, hsweep⟩ := Action.bind_eq_ok.1 hreroot
    obtain ⟨n, -, rfl⟩ := detach_eq_ok hdetach
    cases hsweep
    exact ⟨(h.update _).sweep _, (hclosed.detached.sweep _).closed⟩
  | clear hclear =>
    cases hclear
    exact ⟨accounted_empty, closed_empty⟩

/-- What holds of an arena after any operations, starting with the empty one. -/
theorem keeps_of_operations (h : Relation.ReflTransGen Operation (∅ : Arena R) a) :
    a.Accounted ∧ a.Closed := by
  induction h with
  | refl => exact ⟨accounted_empty, closed_empty⟩
  | tail _ hop ih => exact hop.keeps ih.1 ih.2

/-- However often numbers were given out again, the arena knows how many nodes there are and which slots are
empty, gives a new node none of the numbers in use, sweeps just the nodes that no root leads to, and has just
the nodes below its only root. -/
theorem recycles_numbers (h : Relation.ReflTransGen Operation (∅ : Arena R) a) :
    a.Accounted ∧
      (∀ n, ∃ id a', Arena.add (.ok n) a = .ok id a' ∧ a.contains id = false ∧
        ∀ other, a'.find? other = if other = id then some n else a.find? other) ∧
      (∀ roots, a.Sweeps roots (a.sweep roots).1 (a.sweep roots).2) ∧
      ∀ id, a.contains id = true → ∃ a', Arena.reroot id a = .ok ⟨⟩ a' ∧
        ∀ x, a'.contains x = true ↔ a.Leads id x := by
  obtain ⟨haccounted, hclosed⟩ := keeps_of_operations h
  refine ⟨haccounted, fun n => ?_, hclosed.sweep, fun id hid => ?_⟩
  · obtain ⟨-, hfresh, hfind⟩ := haccounted.add (n := n) rfl
    exact ⟨_, _, rfl, hfresh, hfind⟩
  · obtain ⟨n, hn⟩ := contains_iff.1 hid
    obtain ⟨a', hreroot, -, hself, hothers⟩ := reroot_yields haccounted.orderly hclosed hn
    refine ⟨a', hreroot, fun x => ?_⟩
    by_cases hx : x = id
    · rw [hx, contains, hself]
      exact ⟨fun _ => .refl, fun _ => rfl⟩
    constructor
    · intro hlive
      by_contra hleads
      rw [contains, (hothers x hx).2 hleads] at hlive
      cases hlive
    · intro hleads
      rw [contains, (hothers x hx).1 hleads]
      cases hleads with
      | refl => exact absurd rfl hx
      | step _ he => exact hclosed _ _ he

/-- A node with edges to some children. -/
def twig (children : List NodeId) : Node Unit where
  parent := none
  depth := 0
  role := chance
  knowledge := .perfect ∅ none
  edges := some (children.map fun id => ⟨⟨none, ∅⟩, ∅, ∅, id⟩).toArray

/-- Nodes with edges to some children each. -/
def twigs (children : List (List NodeId)) : Arena Unit :=
  ⟨(children.map fun ids => some (twig ids)).toArray, [], children.length⟩

/-- The theorem applies to three nodes, the first of them with two edges to the second, and a sweep that names
the first of them twice and a number that is not in use. -/
theorem recycles_numbers_twigs : ∃ a : Arena Unit, Relation.ReflTransGen Operation ∅ a ∧ a.Accounted ∧
    a.contains 7 = false ∧ a.Leads 0 1 ∧ a.Sweeps [0, 0, 7] (a.sweep [0, 0, 7]).1 (a.sweep [0, 0, 7]).2 ∧
    (a.sweep [0, 0, 7]).2.contains 1 = true ∧ (a.sweep [0, 0, 7]).2.contains 2 = false := by
  have hadd : ∀ ids : List (List NodeId), add (.ok (twig [])) (twigs ids) = .ok ids.length (twigs (ids ++ [[]])) →
      Operation (twigs ids) (twigs (ids ++ [[]])) := fun ids hrun => .add (by simp [twig, Node.edgeList]) hrun
  have hchange : Operation (twigs [[], [], []]) (twigs [[1, 1], [], []]) :=
    @Operation.change _ _ _ 0 (fun _ => twig [1, 1]) (by simp [twig, Node.edgeList, contains, find?, twigs]) rfl
  have hrun : Relation.ReflTransGen Operation ∅ (twigs [[1, 1], [], []]) :=
    (((Relation.ReflTransGen.refl.tail (hadd [] rfl)).tail (hadd [[]] rfl)).tail (hadd [[], []] rfl)).tail
      hchange
  obtain ⟨haccounted, -, hsweeps, -⟩ := recycles_numbers hrun
  have hleads : (twigs [[1, 1], [], []]).Leads 0 1 :=
    .step (e := ⟨⟨none, ∅⟩, ∅, ∅, 1⟩) .refl (by simp [edgesOf, find?, twigs, twig])
  have honly : ∀ x, (twigs [[1, 1], [], []]).Leads 0 x → x = 0 ∨ x = 1 := by
    intro x hx
    induction hx with
    | refl => exact .inl rfl
    | step _ he ih =>
      rcases ih with rfl | rfl <;> simp [edgesOf, find?, twigs, twig] at he
      exact .inr (by rw [he])
  refine ⟨_, hrun, haccounted, rfl, hleads, hsweeps [0, 0, 7], ?_, ?_⟩
  · rw [contains, (hsweeps [0, 0, 7]).keeps 1 ⟨0, by simp, rfl, hleads⟩]
    rfl
  · rw [contains_eq_false]
    refine (hsweeps [0, 0, 7]).removes 2 ?_
    rintro ⟨r, hr, hlive, hr2⟩
    rcases (by simpa using hr : r = 0 ∨ r = 7) with rfl | rfl
    · simpa using honly 2 hr2
    · cases hlive

end GameSearch.Arena
