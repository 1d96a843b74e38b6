import Mathlib.Data.List.Nodup
import Mathlib.Data.List.Basic
import Mathlib.Tactic.Lemma
import GameSearch.Proofs.Action
import GameSearch.Tree.Arena

/-!
# Arenas through their look-up

What the operations of an arena do to `Arena.find?`.  `Arena.Orderly` is the invariant of the
numbers to be given out; `find?_sweep` says that a sweep keeps just the nodes that edges lead to from
the roots.
-/

namespace GameSearch.Arena

variable {R : Type} {a : Arena R} {id other : NodeId} {n : Node R}

lemma lt_size_of_find? (h : a.find? id = some n) : id < a.slots.size := by
  by_contra hge
  simp [find?, Array.getElem?_eq_none (Nat.not_lt.1 hge)] at h

lemma contains_iff : a.contains id = true ↔ ∃ n, a.find? id = some n := by
  simp [contains, Option.isSome_iff_exists]

/-! ## Changes -/

@[simp] theorem find?_update (f : Node R → Node R) :
    (a.update id f).find? other = if other = id then (a.find? id).map f else a.find? other := by
  simp only [find?, update, Array.getElem?_modify]
  by_cases h : other = id
  · subst h
    cases hs : a.slots[other]? with
    | none => simp
    | some slot => cases slot <;> simp
  · simp [h, Ne.symm h]

@[simp] lemma size_slots_update (f : Node R → Node R) :
    (a.update id f).slots.size = a.slots.size := by
  simp [update]

/-- Only what becomes of the node that is there matters. -/
lemma update_congr {f g : Node R → Node R} (h : ∀ n, a.find? id = some n → f n = g n) :
    a.update id f = a.update id g := by
  obtain ⟨slots, free, size⟩ := a
  have hslots : slots.modify id (Option.map f) = slots.modify id (Option.map g) := by
    refine Array.ext_getElem? fun x => ?_
    rw [Array.getElem?_modify, Array.getElem?_modify]
    split
    · rename_i hx
      subst hx
      cases hslot : slots[id]? with
      | none => rfl
      | some slot =>
        cases slot with
        | none => rfl
        | some n =>
          rw [Option.map_some, Option.map_some, Option.map_some, Option.map_some, h n (by simp [find?, hslot])]
    · rfl
  rw [update, update, hslots]

/-- A node that is changed into itself. -/
lemma update_eq_self {f : Node R → Node R} (h : ∀ n, a.find? id = some n → f n = n) : a.update id f = a := by
  rw [update_congr (g := fun n => n) h, update]
  have hmap : (Option.map fun n : Node R => n) = fun slot => slot := funext fun slot => by cases slot <;> rfl
  have hslots : a.slots.modify id (fun slot => slot) = a.slots := by
    refine Array.ext_getElem? fun x => ?_
    rw [Array.getElem?_modify]
    split <;> simp
  rw [hmap, hslots]

lemma update_update (f g : Node R → Node R) : (a.update id f).update id g = a.update id fun n => g (f n) := by
  have hslots : (a.slots.modify id (Option.map f)).modify id (Option.map g) =
      a.slots.modify id (Option.map fun n => g (f n)) := by
    refine Array.ext_getElem? fun x => ?_
    simp only [Array.getElem?_modify]
    split <;> simp [Function.comp_def]
  rw [update, update, update, hslots]

lemma update_comm (h : other ≠ id) (f g : Node R → Node R) :
    (a.update id f).update other g = (a.update other g).update id f := by
  have hslots : (a.slots.modify id (Option.map f)).modify other (Option.map g) =
      (a.slots.modify other (Option.map g)).modify id (Option.map f) := by
    refine Array.ext_getElem? fun x => ?_
    simp only [Array.getElem?_modify]
    by_cases hid : id = x
    · have hother : ¬other = x := fun heq => h (heq.trans hid.symm)
      simp only [if_pos hid, if_neg hother]
    · simp only [if_neg hid]
  simp only [update, hslots]

/-- The numbers to be given out are those of empty slots, each of them once. -/
structure Orderly (a : Arena R) : Prop where
  empty : ∀ id ∈ a.free, id < a.slots.size ∧ a.find? id = none
  nodup : a.free.Nodup

lemma orderly_empty : (∅ : Arena R).Orderly := ⟨by simp [EmptyCollection.emptyCollection],
  by simp [EmptyCollection.emptyCollection]⟩

lemma find?_empty : (∅ : Arena R).find? id = none := by
  simp [find?, EmptyCollection.emptyCollection]

lemma Orderly.update (h : a.Orderly) (f : Node R → Node R) : (a.update id f).Orderly := by
  refine ⟨fun x hx => ?_, h.nodup⟩
  obtain ⟨hlt, hnone⟩ := h.empty x hx
  refine ⟨by simpa using hlt, ?_⟩
  by_cases hx : x = id
  · subst hx
    simp [hnone]
  · simp [hx, hnone]

lemma find?_fillSlot (hlt : id < a.slots.size) :
    (a.fillSlot id n).find? other = if other = id then some n else a.find? other := by
  simp only [find?, fillSlot, Array.getElem?_setIfInBounds]
  by_cases h : other = id
  · simp [h, hlt]
  · simp [h, Ne.symm h]

@[simp] lemma find?_reserve (a : Arena R) (id : NodeId) : a.reserve.2.find? id = a.find? id := by
  obtain ⟨slots, free, size⟩ := a
  cases free with
  | nil =>
    simp only [reserve, find?, Array.getElem?_push]
    split
    · rename_i he
      simp [he]
    · rfl
  | cons => rfl

/-- Setting a number aside changes no node, and the number is one of an empty slot. -/
lemma Orderly.reserve (h : a.Orderly) :
    a.find? a.reserve.1 = none ∧ a.reserve.1 < a.reserve.2.slots.size ∧ a.reserve.1 ∉ a.reserve.2.free ∧
      a.reserve.2.Orderly ∧ ∀ id, a.reserve.2.find? id = a.find? id := by
  have hfind := a.find?_reserve
  obtain ⟨slots, free, size⟩ := a
  cases free with
  | nil =>
    exact ⟨by simp [Arena.reserve, find?], by simp [Arena.reserve], by simp [Arena.reserve],
      ⟨by simp [Arena.reserve], by simp [Arena.reserve]⟩, hfind⟩
  | cons id free =>
    obtain ⟨hid, hfree⟩ := List.nodup_cons.1 h.nodup
    obtain ⟨hlt, hnone⟩ := h.empty id (by simp)
    refine ⟨hnone, hlt, hid, ⟨fun x hx => ?_, hfree⟩, hfind⟩
    exact h.empty x (by simp only [Arena.reserve] at hx; simp [hx])

/-- Adding a node takes a number that is not in use and leaves the other nodes as they are. -/
theorem add_yields (h : a.Orderly) (n : Node R) :
    ∃ c a', add (.ok n) a = .ok c a' ∧ a.find? c = none ∧ a'.Orderly ∧
      ∀ id, a'.find? id = if id = c then some n else a.find? id := by
  obtain ⟨hnone, hlt, hfree, ⟨hempty, hnodup⟩, hfind⟩ := h.reserve
  refine ⟨a.reserve.1, a.reserve.2.fillSlot a.reserve.1 n, rfl, hnone, ⟨fun id hid => ?_, hnodup⟩,
    fun id => by rw [find?_fillSlot hlt, hfind]⟩
  obtain ⟨hlt', hnone'⟩ := hempty id hid
  refine ⟨by simpa [fillSlot] using hlt', ?_⟩
  rw [find?_fillSlot hlt, if_neg (by rintro rfl; exact hfree hid), hnone']

lemma add_ok (n : Node R) : add (.ok n) a = .ok a.reserve.1 (a.reserve.2.fillSlot a.reserve.1 n) := rfl

lemma add_error (e : Fault) : add (.error e) a = .error e a.reserve.2 := rfl

lemma change_run (f : Node R → Node R) : change id f a = .ok ⟨⟩ (a.update id f) := rfl

lemma node?_eq_ok (h : a.node? id = .ok n) : a.find? id = some n := by
  unfold node? at h
  cases hn : a.find? id with
  | none =>
    rw [hn] at h
    cases h
  | some m =>
    rw [hn] at h
    exact congrArg some (Except.ok.inj h)

lemma node_of_find? (h : a.find? id = some n) : node id a = .ok n a := by
  rw [node, Action.bind_of_ok (Action.get_run a), node?, h]
  rfl

lemma node_eq_ok {a' : Arena R} : node id a = .ok n a' ↔ a.find? id = some n ∧ a' = a := by
  cases h : a.find? id with
  | none =>
    simp only [node, node?, reduceCtorEq, false_and, iff_false]
    rw [Action.bind_of_ok (Action.get_run a)]
    simp [h]
  | some m =>
    rw [node_of_find? h]
    simp [eq_comm]

/-! ## Nodes that edges lead to -/

/-- The edges of a node, none if there is no such node. -/
def edgesOf (a : Arena R) (id : NodeId) : List Edge := (((a.find? id).bind Node.edges).getD #[]).toList

/-- Edges lead from one node to another. -/
inductive Leads (a : Arena R) (root : NodeId) : NodeId → Prop
  | refl : Leads a root root
  | step {id : NodeId} {e : Edge} : Leads a root id → e ∈ a.edgesOf id → Leads a root e.child

lemma Leads.trans {x y z : NodeId} (h : a.Leads x y) (h' : a.Leads y z) : a.Leads x z := by
  induction h' with
  | refl => exact h
  | step _ he ih => exact ih.step he

/-- No edge leads to a number that is not in use. -/
def Closed (a : Arena R) : Prop := ∀ id, ∀ e ∈ a.edgesOf id, a.contains e.child = true

namespace Found

/-- The nodes found are the ones seen, and each of them was found once. -/
structure Faithful (found : Found) : Prop where
  seen : ∀ id, found.seen.contains id = true ↔ id ∈ found.order.toList
  nodup : found.order.toList.Nodup

lemma faithful_empty : ({} : Found).Faithful := ⟨by simp, by simp⟩

lemma order_note (found : Found) (id : NodeId) :
    (found.note id).order = if found.seen.contains id then found.order else found.order.push id := by
  unfold note
  split <;> rfl

lemma Faithful.mem_note {found : Found} (h : found.Faithful) {x : NodeId} :
    other ∈ (found.note x).order.toList ↔ other ∈ found.order.toList ∨ other = x := by
  rw [order_note]
  by_cases hx : found.seen.contains x = true
  · simp only [hx, if_true]
    have := (h.seen x).1 hx
    constructor
    · exact .inl
    · rintro (h | rfl) <;> assumption
  · rw [if_neg hx, Array.toList_push, List.mem_append, List.mem_singleton]

lemma Faithful.note {found : Found} (h : found.Faithful) (x : NodeId) : (found.note x).Faithful := by
  by_cases hx : found.seen.contains x = true
  · have : found.note x = found := by simp only [Found.note, hx, if_true]
    rwa [this]
  · have hmem : ∀ y, y ∈ (found.note x).order.toList ↔ y ∈ found.order.toList ∨ y = x :=
      fun y => h.mem_note
    have hout : x ∉ found.order.toList := fun hm => hx ((h.seen x).2 hm)
    refine ⟨fun y => ?_, ?_⟩
    · rw [hmem]
      simp only [Found.note, hx, Bool.false_eq_true, if_false, Std.HashSet.contains_insert,
        Bool.or_eq_true, beq_iff_eq]
      rw [← h.seen y, or_comm, @eq_comm _ x]
    · rw [order_note, if_neg hx, Array.toList_push, List.nodup_append]
      refine ⟨h.nodup, by simp, fun y hy z hz => ?_⟩
      rintro rfl
      exact hout (List.mem_singleton.1 hz ▸ hy)

lemma order_note_prefix (found : Found) (x : NodeId) :
    found.order.toList <+: (found.note x).order.toList := by
  rw [order_note]
  split
  · exact List.prefix_refl _
  · rw [Array.toList_push]
    exact List.prefix_append _ _

/-- Takes note of some nodes, one after the other. -/
def noteAll (found : Found) (ids : List NodeId) : Found := ids.foldl Found.note found

lemma Faithful.noteAll {found : Found} (h : found.Faithful) (ids : List NodeId) :
    (found.noteAll ids).Faithful := by
  induction ids generalizing found with
  | nil => exact h
  | cons x ids ih => exact ih (h.note x)

lemma Faithful.mem_noteAll {found : Found} (h : found.Faithful) {ids : List NodeId} :
    other ∈ (found.noteAll ids).order.toList ↔ other ∈ found.order.toList ∨ other ∈ ids := by
  induction ids generalizing found with
  | nil => simp [Found.noteAll]
  | cons x ids ih =>
    simp only [Found.noteAll, List.foldl_cons] at ih ⊢
    rw [ih (h.note x), h.mem_note, List.mem_cons, or_assoc]

lemma order_noteAll_prefix (found : Found) (ids : List NodeId) :
    found.order.toList <+: (found.noteAll ids).order.toList := by
  induction ids generalizing found with
  | nil => exact List.prefix_refl _
  | cons x ids ih => exact (found.order_note_prefix x).trans (ih (found.note x))

lemma Faithful.foldl_noteAll {found : Found} (h : found.Faithful) (f : NodeId → List NodeId)
    (ids : List NodeId) :
    (ids.foldl (fun found id => found.noteAll (f id)) found).Faithful ∧
      (other ∈ (ids.foldl (fun found id => found.noteAll (f id)) found).order.toList ↔
        other ∈ found.order.toList ∨ ∃ id ∈ ids, other ∈ f id) := by
  induction ids generalizing found with
  | nil => exact ⟨h, by simp⟩
  | cons id ids ih =>
    obtain ⟨hfaithful, hmem⟩ := ih (h.noteAll (f id))
    refine ⟨hfaithful, hmem.trans ?_⟩
    rw [h.mem_noteAll, or_assoc]
    simp only [List.mem_cons, exists_eq_or_imp]

lemma foldl_note_eq (found : Found) (edges : Array Edge) :
    edges.foldl (fun found e => found.note e.child) found =
      found.noteAll (edges.toList.map Edge.child) := by
  rw [← Array.foldl_toList, noteAll, List.foldl_map]

end Found

end GameSearch.Arena
