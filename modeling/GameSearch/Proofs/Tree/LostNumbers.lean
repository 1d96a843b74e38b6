import GameSearch.Proofs.Tree.Recycling

/-!
# Lost numbers

The number of a node is set aside before it is known whether there will be a node.  If there is none, the nodes
stay as they are, but the number is not given out again.  `loses_number` says that from then on the arena
answers all calls as if a node had been made under this number and were kept in every sweep.
-/

namespace GameSearch.Arena

variable {R : Type} {a b : Arena R} {id x : NodeId} {n : Node R} {ids : List NodeId}

/-! ## Calls -/

/-- A call on an arena. -/
inductive Call (R : Type) where
  | add (n : Except Fault (Node R))
  | change (id : NodeId) (f : Node R → Node R)
  | sweep (roots : List NodeId)

/-- What a call answers. -/
inductive Answer where
  | added (id : NodeId)
  | failed (e : Fault)
  | changed
  | swept (count : Nat)

/-- The answer to a call, and the arena afterwards. -/
def call (a : Arena R) : Call R → Answer × Arena R
  | .add n =>
    match Arena.add n a with
    | .ok id a' => (.added id, a')
    | .error e a' => (.failed e, a')
  | .change id f => (.changed, a.update id f)
  | .sweep roots => (.swept (a.sweep roots).1, (a.sweep roots).2)

/-- The answers to some calls that are made one after the other, and the arena afterwards. -/
def calls (a : Arena R) : List (Call R) → List Answer × Arena R
  | [] => ([], a)
  | c :: later => ((a.call c).1 :: ((a.call c).2.calls later).1, ((a.call c).2.calls later).2)

/-- A call refers to nodes that there are: it changes one of them, and gives no node an edge to another number. -/
def Fits (a : Arena R) : Call R → Prop
  | .add (.ok n) => ∀ e ∈ n.edgeList, a.contains e.child = true
  | .add (.error _) => True
  | .change id f => ∃ n, a.find? id = some n ∧ ∀ e ∈ (f n).edgeList, a.contains e.child = true
  | .sweep _ => True

/-- Each of some calls refers to nodes that there are when it is made. -/
def AllFit (a : Arena R) : List (Call R) → Prop
  | [] => True
  | c :: later => a.Fits c ∧ (a.call c).2.AllFit later

/-- The same call, but a sweep has one node more to keep. -/
def Call.sparing (id : NodeId) : Call R → Call R
  | .add n => .add n
  | .change x f => .change x f
  | .sweep roots => .sweep (id :: roots)

/-- What has become of an arena by calls that refer to nodes there are, failing ones among them. -/
def Called (a : Arena R) : Prop := ∃ cs, (∅ : Arena R).AllFit cs ∧ ((∅ : Arena R).calls cs).2 = a

/-! ## What every call keeps -/

/-- The arena knows how many nodes there are, gives out numbers of empty slots only, and has no edge to a number
that is not in use.  Not every empty slot need be given out. -/
structure Counted (a : Arena R) : Prop where
  orderly : a.Orderly
  closed : a.Closed
  size : a.size = a.live.card

lemma counted_empty : (∅ : Arena R).Counted := ⟨orderly_empty, closed_empty, accounted_empty.size⟩

namespace Counted

lemma reserve (h : a.Counted) : a.reserve.2.Counted := by
  obtain ⟨-, -, -, horderly, hfind⟩ := h.orderly.reserve
  refine ⟨horderly, fun x e he => ?_, ?_⟩
  · rw [edgesOf, hfind] at he
    rw [contains, hfind]
    exact h.closed x e he
  · have hlive : a.reserve.2.live = a.live := live_congr fun x => by rw [contains, contains, hfind]
    rw [size_reserve, h.size, hlive]

lemma add (h : a.Counted) (hn : ∀ e ∈ n.edgeList, a.contains e.child = true) :
    (a.reserve.2.fillSlot a.reserve.1 n).Counted := by
  obtain ⟨id, a', hadd, -, horderly, hfind⟩ := add_yields h.orderly n
  have hrun : Arena.add (.ok n) a = .ok a.reserve.1 (a.reserve.2.fillSlot a.reserve.1 n) := rfl
  obtain ⟨rfl, rfl⟩ := EStateM.Result.ok.inj (hrun.symm.trans hadd)
  exact ⟨horderly, h.closed.add hn hfind, size_fillSlot h.orderly h.size n⟩

lemma update (h : a.Counted) {f : Node R → Node R}
    (hf : ∀ n, a.find? id = some n → ∀ e ∈ (f n).edgeList, a.contains e.child = true) : (a.update id f).Counted := by
  refine ⟨h.orderly.update f, h.closed.update hf, ?_⟩
  rw [live_congr (contains_update f), ← h.size]
  rfl

lemma size_foldl_remove (h : a.size = a.live.card) (hnodup : ids.Nodup) (hlive : ∀ id ∈ ids, a.contains id = true) :
    (ids.foldl remove a).size = (ids.foldl remove a).live.card := by
  induction ids generalizing a with
  | nil => exact h
  | cons id ids ih =>
    obtain ⟨hid, hnodup⟩ := List.nodup_cons.1 hnodup
    exact ih (size_remove h (hlive id List.mem_cons_self)) hnodup (contains_remove hid hlive)

lemma sweep (h : a.Counted) (roots : List NodeId) : (a.sweep roots).2.Counted :=
  ⟨h.orderly.sweep roots, (h.closed.sweep roots).closed,
    size_foldl_remove h.size (nodup_unreachable a roots) fun _ => contains_of_mem_unreachable⟩

/-- Whether or not a node can be made, the arena stays so. -/
theorem call (h : a.Counted) {c : Call R} (hfits : a.Fits c) : (a.call c).2.Counted := by
  cases c with
  | add n =>
    cases n with
    | ok n => exact h.add hfits
    | error e => exact h.reserve
  | change id f =>
    obtain ⟨n, hn, hedges⟩ := hfits
    refine h.update fun m hm => ?_
    rw [hn] at hm
    cases hm
    exact hedges
  | sweep roots => exact h.sweep roots

theorem calls (h : a.Counted) {cs : List (Call R)} (hfit : a.AllFit cs) : (a.calls cs).2.Counted := by
  induction cs generalizing a with
  | nil => exact h
  | cons c later ih => exact ih (h.call hfit.1) hfit.2

end Counted

lemma Called.counted (h : a.Called) : a.Counted := by
  obtain ⟨cs, hfit, rfl⟩ := h
  exact counted_empty.calls hfit

/-! ## One node more -/

/-- One arena is another one with one node more, whose number the other neither uses nor gives out. -/
structure OneMore (id : NodeId) (n : Node R) (a b : Arena R) : Prop where
  slots : b.slots.size = a.slots.size
  free : b.free = a.free
  size : b.size = a.size + 1
  lost : a.find? id = none
  lt : id < a.slots.size
  notMem : id ∉ a.free
  find? : ∀ x, b.find? x = if x = id then some n else a.find? x

namespace OneMore

lemma find?_of_ne (h : OneMore id n a b) (hx : x ≠ id) : b.find? x = a.find? x := by
  rw [h.find?, if_neg hx]

lemma ne_of_contains (h : OneMore id n a b) (hx : a.contains x = true) : x ≠ id := by
  rintro rfl
  rw [contains, h.lost] at hx
  cases hx

lemma contains_of_ne (h : OneMore id n a b) (hx : x ≠ id) : b.contains x = a.contains x := by
  rw [contains, contains, h.find?_of_ne hx]

/-- No edge leads away from the node more. -/
lemma edgesOf (h : OneMore id n a b) (hn : n.edgeList = []) (x : NodeId) : b.edgesOf x = a.edgesOf x := by
  by_cases hx : x = id
  · rw [Arena.edgesOf, Arena.edgesOf, h.find?, if_pos hx, hx, h.lost]
    exact hn
  · rw [Arena.edgesOf, Arena.edgesOf, h.find?_of_ne hx]

lemma leads_iff (h : OneMore id n a b) (hn : n.edgeList = []) {r : NodeId} : b.Leads r x ↔ a.Leads r x := by
  constructor
  · intro hleads
    induction hleads with
    | refl => exact .refl
    | step _ he ih => exact ih.step (h.edgesOf hn _ ▸ he)
  · intro hleads
    induction hleads with
    | refl => exact .refl
    | step _ he ih => exact ih.step ((h.edgesOf hn _).symm ▸ he)

lemma closed (h : OneMore id n a b) (hn : n.edgeList = []) (ha : a.Closed) : b.Closed := by
  intro x e he
  have hlive := ha x e (h.edgesOf hn x ▸ he)
  rwa [h.contains_of_ne (h.ne_of_contains hlive)]

/-- No node is kept for the sake of the node more. -/
lemma kept_iff (h : OneMore id n a b) (hn : n.edgeList = []) {roots : List NodeId} (hx : x ≠ id) :
    b.Kept (id :: roots) x ↔ a.Kept roots x := by
  have hself : ∀ {y}, a.Leads id y → y = id := by
    intro y hleads
    induction hleads with
    | refl => rfl
    | step _ he ih =>
      rw [ih, Arena.edgesOf, h.lost] at he
      cases he
  constructor
  · rintro ⟨r, hr, hlive, hleads⟩
    rw [h.leads_iff hn] at hleads
    have hne : r ≠ id := by
      rintro rfl
      exact hx (hself hleads)
    exact ⟨r, List.mem_of_ne_of_mem hne hr, h.contains_of_ne hne ▸ hlive, hleads⟩
  · rintro ⟨r, hr, hlive, hleads⟩
    have hlive' : b.contains r = true := by rwa [h.contains_of_ne (h.ne_of_contains hlive)]
    exact ⟨r, List.mem_cons_of_mem id hr, hlive', (h.leads_iff hn).2 hleads⟩

/-- A sweep that keeps the node more removes the same nodes. -/
lemma unreachable_eq (h : OneMore id n a b) (hn : n.edgeList = []) (ha : a.Closed) (roots : List NodeId) :
    b.unreachable (id :: roots) = a.unreachable roots := by
  have hmem : ∀ x, x ∈ b.unreachable (id :: roots) ↔ x ∈ a.unreachable roots := by
    intro x
    rw [mem_unreachable (h.closed hn ha), mem_unreachable ha]
    by_cases hx : x = id
    · subst hx
      have hself : b.contains x = true := by
        rw [contains, h.find?, if_pos rfl]
        rfl
      have hkept : b.Kept (x :: roots) x := ⟨x, List.mem_cons_self, hself, .refl⟩
      simp [contains, h.lost, hkept]
    · rw [h.contains_of_ne hx, h.kept_iff hn hx]
  -- both lists are parts of one range of numbers, in its order
  simp only [unreachable, h.slots, List.mem_filter] at hmem ⊢
  refine List.filter_congr fun x hx => ?_
  rw [Bool.eq_iff_iff]
  exact and_congr_right_iff.1 (hmem x) hx

lemma reserve (h : OneMore id n a b) :
    b.reserve.1 = a.reserve.1 ∧ a.reserve.1 ≠ id ∧ OneMore id n a.reserve.2 b.reserve.2 := by
  have hnumber : b.reserve.1 = a.reserve.1 ∧ b.reserve.2.slots.size = a.reserve.2.slots.size ∧
      b.reserve.2.free = a.reserve.2.free := by
    unfold Arena.reserve
    rw [h.free]
    split <;> simp [h.slots]
  have hother : a.reserve.1 ≠ id ∧ a.slots.size ≤ a.reserve.2.slots.size ∧ ∀ x ∈ a.reserve.2.free, x ∈ a.free := by
    unfold Arena.reserve
    split
    · exact ⟨(Nat.ne_of_lt h.lt).symm, by simp, by simp⟩
    · rename_i hfree
      refine ⟨?_, Nat.le_refl _, fun x hx => by simp [hfree, hx]⟩
      rintro rfl
      exact h.notMem (by simp [hfree])
  refine ⟨hnumber.1, hother.1, hnumber.2.1, hnumber.2.2, ?_, ?_, Nat.lt_of_lt_of_le h.lt hother.2.1,
    fun hid => h.notMem (hother.2.2 id hid), fun x => ?_⟩
  · rw [size_reserve, size_reserve, h.size]
  · rw [find?_reserve, h.lost]
  · rw [find?_reserve, find?_reserve, h.find?]

lemma fillSlot (h : OneMore id n a b) (m : Node R) (hne : x ≠ id) (hlt : x < a.slots.size) :
    OneMore id n (a.fillSlot x m) (b.fillSlot x m) := by
  refine ⟨?_, h.free, congrArg (· + 1) h.size, ?_, ?_, h.notMem, fun y => ?_⟩
  · simp [Arena.fillSlot, h.slots]
  · rw [find?_fillSlot hlt, if_neg hne.symm, h.lost]
  · simpa [Arena.fillSlot] using h.lt
  · rw [find?_fillSlot hlt, find?_fillSlot (h.slots.symm ▸ hlt), h.find?]
    by_cases hy : y = id
    · rw [if_pos hy, if_pos hy, if_neg (hy ▸ hne.symm)]
    · rw [if_neg hy, if_neg hy]

lemma update (h : OneMore id n a b) (f : Node R → Node R) (hne : x ≠ id) :
    OneMore id n (a.update x f) (b.update x f) := by
  refine ⟨?_, h.free, h.size, ?_, ?_, h.notMem, fun y => ?_⟩
  · rw [size_slots_update, size_slots_update, h.slots]
  · rw [find?_update, if_neg hne.symm, h.lost]
  · rw [size_slots_update]
    exact h.lt
  · rw [find?_update, find?_update, h.find?_of_ne hne, h.find?]
    by_cases hy : y = id
    · rw [if_neg (hy ▸ hne.symm), if_pos hy, if_pos hy]
    · rw [if_neg hy, if_neg hy]

lemma remove (h : OneMore id n a b) (hne : x ≠ id) (hpos : 0 < a.size) :
    OneMore id n (a.remove x) (b.remove x) := by
  refine ⟨?_, congrArg (x :: ·) h.free, ?_, ?_, ?_, ?_, fun y => ?_⟩
  · simp [Arena.remove, h.slots]
  · have hsize := h.size
    simp only [Arena.remove]
    omega
  · rw [find?_remove, h.lost, ite_self]
  · simpa [Arena.remove] using h.lt
  · exact fun hid => h.notMem ((List.mem_cons.1 hid).resolve_left hne.symm)
  · rw [find?_remove, find?_remove, h.find?]
    by_cases hy : y = id
    · rw [if_neg (hy ▸ hne.symm), if_pos hy, if_pos hy]
    · rw [if_neg hy, if_neg hy]

lemma foldl_remove (h : OneMore id n a b) (ha : a.size = a.live.card) (hnodup : ids.Nodup)
    (hlive : ∀ x ∈ ids, a.contains x = true) : OneMore id n (ids.foldl Arena.remove a) (ids.foldl Arena.remove b) := by
  induction ids generalizing a b with
  | nil => exact h
  | cons x ids ih =>
    obtain ⟨hx, hnodup⟩ := List.nodup_cons.1 hnodup
    have hthere := hlive x List.mem_cons_self
    have hpos : 0 < a.size := by
      rw [ha]
      exact Finset.card_pos.2 ⟨x, mem_live.2 hthere⟩
    exact ih (h.remove (h.ne_of_contains hthere) hpos) (size_remove ha hthere) hnodup (contains_remove hx hlive)

/-- A call that keeps the node more has the same answer in both arenas. -/
theorem call (h : OneMore id n a b) (hn : n.edgeList = []) (ha : a.Counted) {c : Call R} (hfits : a.Fits c) :
    (b.call (c.sparing id)).1 = (a.call c).1 ∧ (a.call c).1 ≠ .added id ∧
      OneMore id n (a.call c).2 (b.call (c.sparing id)).2 := by
  cases c with
  | add m =>
    obtain ⟨hnumber, hne, hreserve⟩ := h.reserve
    cases m with
    | ok m =>
      have hlt := ha.orderly.reserve.2.1
      have hadd : b.call (.add (.ok m)) = (.added a.reserve.1, b.reserve.2.fillSlot a.reserve.1 m) := by
        rw [← hnumber]
        rfl
      rw [Call.sparing, hadd]
      exact ⟨rfl, fun hid => hne (Answer.added.inj hid), hreserve.fillSlot m hne hlt⟩
    | error e => exact ⟨rfl, Answer.noConfusion, hreserve⟩
  | change x f =>
    obtain ⟨m, hm, -⟩ := hfits
    have hne : x ≠ id := h.ne_of_contains (contains_iff.2 ⟨m, hm⟩)
    exact ⟨rfl, Answer.noConfusion, h.update f hne⟩
  | sweep roots =>
    have hids := h.unreachable_eq hn ha.closed roots
    have hremoved : OneMore id n (a.sweep roots).2 (b.sweep (id :: roots)).2 := by
      rw [sweep, sweep, hids]
      exact h.foldl_remove ha.size (nodup_unreachable a roots) fun _ => contains_of_mem_unreachable
    have hcount : (b.sweep (id :: roots)).1 = (a.sweep roots).1 := congrArg List.length hids
    exact ⟨congrArg Answer.swept hcount, Answer.noConfusion, hremoved⟩

theorem calls (h : OneMore id n a b) (hn : n.edgeList = []) (ha : a.Counted) {cs : List (Call R)} (hfit : a.AllFit cs) :
    (b.calls (cs.map (.sparing id))).1 = (a.calls cs).1 ∧ .added id ∉ (a.calls cs).1 ∧
      OneMore id n (a.calls cs).2 (b.calls (cs.map (.sparing id))).2 := by
  induction cs generalizing a b with
  | nil => exact ⟨rfl, List.not_mem_nil, h⟩
  | cons c later ih =>
    obtain ⟨hanswer, hne, hcall⟩ := h.call hn ha hfit.1
    obtain ⟨hanswers, hnot, hcalls⟩ := ih hcall (ha.call hfit.1) hfit.2
    refine ⟨?_, ?_, hcalls⟩
    · rw [List.map_cons, Arena.calls, Arena.calls, hanswer, hanswers]
    · rw [Arena.calls, List.mem_cons, not_or]
      exact ⟨hne.symm, hnot⟩

end OneMore

/-! ## The number of a node that is not made -/

/-- However often numbers were given out again and constructions failed before, a construction that fails changes
no node and not the number of nodes.  But the number that a node would have been given is lost: all later calls,
failing constructions among them, are answered as if a node had been made that is kept in every sweep, and none
of them gives this number out. -/
theorem loses_number (ha : a.Called) (e : Fault) : ∃ id a', add (.error e) a = .error e a' ∧ a'.size = a.size ∧
    (∀ x, a'.find? x = a.find? x) ∧ ∀ n : Node R, n.edgeList = [] → ∃ b, add (.ok n) a = .ok id b ∧
      ∀ later, a'.AllFit later → (a'.calls later).1 = (b.calls (later.map (.sparing id))).1 ∧
        .added id ∉ (a'.calls later).1 ∧ OneMore id n (a'.calls later).2 (b.calls (later.map (.sparing id))).2 := by
  have hcounted := ha.counted
  obtain ⟨hnone, hlt, hnot, -, hfind⟩ := hcounted.orderly.reserve
  refine ⟨a.reserve.1, a.reserve.2, rfl, size_reserve a, hfind, fun n hn => ?_⟩
  refine ⟨a.reserve.2.fillSlot a.reserve.1 n, rfl, fun later hfit => ?_⟩
  have hmore : OneMore a.reserve.1 n a.reserve.2 (a.reserve.2.fillSlot a.reserve.1 n) :=
    ⟨by simp [fillSlot], rfl, rfl, by rw [hfind, hnone], hlt, hnot, fun x => find?_fillSlot hlt⟩
  obtain ⟨hanswers, hnever, hend⟩ := hmore.calls hn hcounted.reserve hfit
  exact ⟨hanswers.symm, hnever, hend⟩

/-- The theorem applies to an arena with one node, where a belief in no world and then a node at a negative depth
are to be added: the node after them is the fourth one by its number, and the second one by the number of nodes. -/
theorem loses_number_second : (twigs [[]]).Called ∧
    ∃ a', add (Node.belief? none 0 chance ∅ true .hidden) (twigs [[]]) = .error .noWorlds a' ∧
      (∀ later, a'.AllFit later → .added 1 ∉ (a'.calls later).1) ∧
      (a'.calls [.add (Node.perfect? none (-1) chance ∅ none), .add (.ok (twig []))]).1 =
        [.failed (.negativeDepth (-1)), .added 3] ∧
      (a'.calls [.add (Node.perfect? none (-1) chance ∅ none), .add (.ok (twig []))]).2.size = 2 := by
  have hcalled : (twigs [[]]).Called := ⟨[.add (.ok (twig []))], ⟨by simp [Fits, twig, Node.edgeList], trivial⟩, rfl⟩
  have hnone : (Node.belief? none 0 chance ∅ true .hidden : Except Fault (Node Unit)) = .error .noWorlds := rfl
  obtain ⟨id, a', hfails, -, -, hlater⟩ := loses_number hcalled .noWorlds
  obtain ⟨b, hadd, hanswers⟩ := hlater (twig []) (by simp [twig, Node.edgeList])
  obtain rfl : 1 = id := (EStateM.Result.ok.inj hadd).1
  obtain rfl : (twigs [[]]).reserve.2 = a' := (EStateM.Result.error.inj hfails).2
  rw [hnone]
  exact ⟨hcalled, _, hfails, fun later hfit => (hanswers later hfit).2.1, rfl, rfl⟩

end GameSearch.Arena
