import GameSearch.Proofs.Tree.Credit

/-!
# New roots

When nodes are made roots, edges from above may still lead to them; a sweep that keeps only what is below
the roots restores the shape of the arena.  What is kept of a tree keeps its valuations.
-/

namespace GameSearch.Arena

variable {R : Type} {a a' a'' : Arena R} {roots : NodeId → Prop} {ids : List NodeId} {id k x : NodeId}
  {n n' : Node R}

/-- Some nodes have been made roots. -/
structure Detaches (roots : NodeId → Prop) (a a' : Arena R) : Prop where
  orderly : a'.Orderly
  node : ∀ id, a'.find? id = a.find? id ∨ roots id ∧ a'.find? id = (a.find? id).map Node.detached

lemma Detaches.refl (h : a.Orderly) : Detaches roots a a := ⟨h, fun _ => .inl rfl⟩

lemma Detaches.mono {roots' : NodeId → Prop} (h : Detaches roots a a') (himp : ∀ id, roots id → roots' id) :
    Detaches roots' a a' := ⟨h.orderly, fun id => (h.node id).imp_right fun hid => ⟨himp id hid.1, hid.2⟩⟩

lemma detach_eq_ok (hrun : detach k a = .ok ⟨⟩ a') :
    ∃ n, a.find? k = some n ∧ a' = a.update k Node.detached := by
  obtain ⟨n, a₁, hnode, hrest⟩ := Action.bind_eq_ok.1 hrun
  obtain ⟨hn, rfl⟩ := node_eq_ok.1 hnode
  cases hrest
  exact ⟨n, hn, rfl⟩

lemma Detaches.detach (h : Detaches roots a a') (hk : roots k) (hrun : Arena.detach k a' = .ok ⟨⟩ a'') :
    Detaches roots a a'' := by
  obtain ⟨n, -, rfl⟩ := detach_eq_ok hrun
  refine ⟨h.orderly.update _, fun id => ?_⟩
  rw [find?_update]
  split
  · rename_i hid
    refine .inr ⟨hid ▸ hk, ?_⟩
    rw [hid]
    rcases h.node k with hsame | ⟨-, hdetached⟩
    · rw [hsame]
    · rw [hdetached, Option.map_map]
      rfl
  · exact h.node id

lemma Detaches.find?_eq_some (h : Detaches roots a a') (hn' : a'.find? id = some n') :
    ∃ n, a.find? id = some n ∧ (n' = n ∨ roots id ∧ n' = n.detached) := by
  rcases h.node id with hsame | ⟨hid, hdetached⟩
  · exact ⟨n', hsame ▸ hn', .inl rfl⟩
  · rw [hdetached] at hn'
    obtain ⟨n, hn, rfl⟩ := Option.map_eq_some_iff.1 hn'
    exact ⟨n, hn, .inr ⟨hid, rfl⟩⟩

lemma Detaches.edgesOf (h : Detaches roots a a') (id : NodeId) : a'.edgesOf id = a.edgesOf id := by
  unfold Arena.edgesOf
  rcases h.node id with hsame | ⟨-, hdetached⟩
  · rw [hsame]
  · rw [hdetached]
    cases a.find? id <;> rfl

lemma Detaches.valuation? (h : Detaches roots a a') (id : NodeId) : a'.valuation? id = a.valuation? id := by
  unfold Arena.valuation?
  rcases h.node id with hsame | ⟨-, hdetached⟩
  · rw [hsame]
  · rw [hdetached]
    cases a.find? id <;> rfl

lemma Detaches.contains (h : Detaches roots a a') (id : NodeId) : a'.contains id = a.contains id := by
  unfold Arena.contains
  rcases h.node id with hsame | ⟨-, hdetached⟩
  · rw [hsame]
  · rw [hdetached, Option.isSome_map]

lemma Detaches.leads_iff (h : Detaches roots a a') : a'.Leads id k ↔ a.Leads id k := by
  constructor <;> intro hleads
  · induction hleads with
    | refl => exact .refl
    | step _ he ih => exact ih.step (h.edgesOf _ ▸ he)
  · induction hleads with
    | refl => exact .refl
    | step _ he ih => exact ih.step ((h.edgesOf _).symm ▸ he)

lemma Detaches.closed (h : Detaches roots a a') (hclosed : a.Closed) : a'.Closed := fun id e he => by
  rw [h.contains]
  exact hclosed id e (h.edgesOf id ▸ he)

/-- A node that has been kept was there, and edges led to it from a root. -/
lemma find?_of_sweep (hclosed : a.Closed) (hn : (a.sweep ids).2.find? id = some n) :
    a.find? id = some n ∧ ∃ r ∈ ids, a.contains r = true ∧ a.Leads r id := by
  by_cases hkept : a.Kept ids id
  · exact ⟨((find?_sweep hclosed ids).1 hkept).symm.trans hn, hkept⟩
  · rw [(find?_sweep hclosed ids).2 hkept] at hn
    cases hn

/-- A sweep restores the shape, if no edge that is kept leads to a new root. -/
theorem Shaped.sweep (h : a.Shaped) (hdetaches : Detaches roots a a')
    (hroots : ∀ r ∈ ids, a.contains r = true → ∀ x, a.Leads r x → ∀ e ∈ a.edgesOf x, ¬roots e.child) :
    (a'.sweep ids).2.Shaped := by
  have hclosed := hdetaches.closed h.closed
  refine ⟨hdetaches.orderly.sweep ids, fun id n' hn' => ?_⟩
  obtain ⟨hn', r, hr, hlive, hleads⟩ := find?_of_sweep hclosed hn'
  obtain ⟨n, hn, heq⟩ := hdetaches.find?_eq_some hn'
  have hupright := h.upright id n hn
  have hkeeps : n'.edgeList = n.edgeList ∧ n'.station.child id = n.station.child id ∧
      n'.knowledge = n.knowledge := by
    rcases heq with rfl | ⟨-, rfl⟩ <;> exact ⟨rfl, rfl, rfl⟩
  obtain ⟨hedges, hstation, hknowledge⟩ := hkeeps
  refine ⟨fun e he => ?_, fun k hk => ?_⟩
  · rw [hedges] at he
    have he' : e ∈ a.edgesOf id := edgesOf_of_find? hn ▸ he
    have hkept : a'.Kept ids e.child :=
      ⟨r, hr, hlive, hleads.step ((hdetaches.edgesOf id).symm ▸ he')⟩
    have hsame : a'.find? e.child = a.find? e.child := (hdetaches.node e.child).resolve_right fun hroot =>
      hroots r hr (hdetaches.contains r ▸ hlive) id (hdetaches.leads_iff.1 hleads) e he' hroot.1
    rw [station?, (find?_sweep hclosed ids).1 hkept, hsame, hstation]
    exact hupright.child e he
  · rw [Node.Files, hknowledge] at hk
    rw [hedges]
    exact hupright.filed k hk

/-- The nodes of an arena have the valuations that they had in another one, none if they are new. -/
def Inherits (a a' : Arena R) : Prop := ∀ id n, a'.find? id = some n → n.valuation = a.valuation? id

lemma Inherits.grows (h : Inherits a' a'') (hgrows : Grows a a') : Inherits a a'' := fun id n hn => by
  rw [h id n hn, hgrows.valuation]

lemma Detaches.inherits (h : Detaches roots a a') (hclosed : a.Closed) : Inherits a (a'.sweep ids).2 := by
  intro id n hn
  rw [← h.valuation?, valuation?_of_find? (find?_of_sweep (h.closed hclosed) hn).1]

/-- A node has been made the only root. -/
structure Rerooted (a : Arena R) (id : NodeId) (a' : Arena R) : Prop where
  shaped : a'.Shaped
  inherits : Inherits a a'
  root : ∃ n, a.find? id = some n ∧ a'.find? id = some n.detached
  other : ∀ k n, k ≠ id → a'.find? k = some n → a.find? k = some n

/-- A node that is made the only root keeps what is below it. -/
theorem Shaped.reroot (h : a.Shaped) (hrun : Arena.reroot id a = .ok ⟨⟩ a') : Rerooted a id a' := by
  obtain ⟨_, a₁, hdetach, hsweep⟩ := Action.bind_eq_ok.1 hrun
  cases hsweep
  have hdetaches : Detaches (· = id) a a₁ := (Detaches.refl h.orderly).detach rfl hdetach
  obtain ⟨n, hn, rfl⟩ := detach_eq_ok hdetach
  have hclosed := hdetaches.closed h.closed
  refine ⟨h.sweep hdetaches fun r hr _ x hx e he hroot => ?_, hdetaches.inherits h.closed,
    ⟨n, hn, ?_⟩, fun k m hk hm => ?_⟩
  · rw [List.mem_singleton.1 hr, ← hroot] at hx
    exact h.child_not_leads he hx
  · have hself : (a.update id Node.detached).find? id = some n.detached := by simp [hn]
    rw [(find?_sweep hclosed [id]).1 ⟨id, by simp, contains_iff.2 ⟨_, hself⟩, .refl⟩, hself]
  · have hm := (find?_of_sweep hclosed hm).1
    rwa [find?_update, if_neg hk] at hm

end GameSearch.Arena
