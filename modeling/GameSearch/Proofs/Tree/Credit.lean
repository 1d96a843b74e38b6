import GameSearch.Proofs.Tree.Developing

/-!
# Utilities on their way up

In a shaped arena a node has one parent, so the nodes above it are those that edges lead from.  Taking a
utility into a node below a root, and then into all above it, therefore takes it once into the valuation of
each node that edges lead from to that node, and into no other one: `backpropagate_credits`.
-/

namespace GameSearch

namespace Valuation

variable {R : Type} [Scalar R]

/-- A valuation, if there is one yet, that takes in one more utility. -/
def take (v : Option (Valuation R)) (utility : R) : Option (Valuation R) :=
  match v with
  | some v => some (v.add utility)
  | none => some ⟨utility, 1⟩

/-- A utility that is taken in is one more playout. -/
lemma playouts_take (v : Option (Valuation R)) (utility : R) :
    ((take v utility).map playouts).getD 0 = (v.map playouts).getD 0 + 1 := by
  cases v <;> rfl

/-- The valuation after playouts of some utilities, one after the other. -/
def ofAll (utilities : List R) : Option (Valuation R) := utilities.foldl take none

lemma ofUtility?_eq_ok {utility : R} {v : Valuation R} (h : ofUtility? utility = .ok v) : v = ⟨utility, 1⟩ := by
  unfold ofUtility? ofMean? at h
  split at h
  · cases h
  · split at h
    · cases h
    · cases h
      rfl

end Valuation

namespace Arena

variable {R : Type} {a a' a'' : Arena R} {id root k x : NodeId} {n : Node R} {s : Station} {role : Role}

/-- How many playouts the node with a number has had: none if it has no valuation. -/
def playouts (a : Arena R) (id : NodeId) : Nat := ((a.valuation? id).map Valuation.playouts).getD 0

/-! ## Edges lead down -/

lemma Shaped.depth_le (h : a.Shaped) (hs : a.station? id = some s) (hleads : a.Leads id k) :
    ∃ s', a.station? k = some s' ∧ s.depth ≤ s'.depth := by
  induction hleads with
  | refl => exact ⟨s, hs, Nat.le_refl _⟩
  | step _ he ih =>
    obtain ⟨s', hs', hle⟩ := ih
    obtain ⟨s'', hs'', hchild⟩ := h.child he
    rw [hs', Option.some.injEq] at hs''
    exact ⟨_, hchild, hs'' ▸ Nat.le_succ_of_le hle⟩

/-- Edges do not lead back. -/
lemma Shaped.child_not_leads {e : Edge} (h : a.Shaped) (he : e ∈ a.edgesOf x) : ¬a.Leads e.child x := by
  intro hleads
  obtain ⟨s, hs, hchild⟩ := h.child he
  obtain ⟨s', hs', hle⟩ := h.depth_le hchild hleads
  rw [hs, Option.some.injEq] at hs'
  subst hs'
  exact absurd hle (Nat.not_le_of_lt (Nat.lt_succ_self s.depth))

/-- Each edge to a node comes from its parent. -/
lemma Shaped.source_unique {e e' : Edge} {y : NodeId} (h : a.Shaped) (he : e ∈ a.edgesOf x)
    (he' : e' ∈ a.edgesOf y) (hsame : e.child = e'.child) : x = y := by
  obtain ⟨s, -, hchild⟩ := h.child he
  obtain ⟨s', -, hchild'⟩ := h.child he'
  rw [hsame, hchild', Option.some.injEq] at hchild
  have hparent : (Int.ofNat y) = Int.ofNat x := Option.some.inj (congrArg Station.parent hchild)
  exact (Int.ofNat.inj hparent).symm

/-- What leads to a child, other than the child, leads to its parent. -/
lemma Shaped.leads_child_iff {e : Edge} (h : a.Shaped) (he : e ∈ a.edgesOf x) :
    a.Leads id e.child ↔ id = e.child ∨ a.Leads id x := by
  constructor
  · intro hleads
    generalize hc : e.child = c at hleads
    cases hleads with
    | refl => exact .inl rfl
    | step hid he' => exact .inr (h.source_unique he' he hc.symm ▸ hid)
  · rintro (rfl | hleads)
    · exact .refl
    · exact hleads.step he

/-- What leads to a node from above leads there through a child. -/
lemma Leads.exists_child (h : a.Leads id k) (hne : id ≠ k) : ∃ e ∈ a.edgesOf id, a.Leads e.child k := by
  induction h with
  | refl => exact absurd rfl hne
  | @step x e _ he ih =>
    by_cases hx : id = x
    · exact ⟨e, hx ▸ he, .refl⟩
    · obtain ⟨e', he', hleads⟩ := ih hx
      exact ⟨e', he', hleads.step he⟩

/-- Of two nodes above a third one, one is above the other. -/
lemma Shaped.leads_total (h : a.Shaped) (hid : a.Leads id k) (hx : a.Leads x k) : a.Leads id x ∨ a.Leads x id := by
  induction hid with
  | refl => exact .inr hx
  | step hid he ih =>
    rcases (h.leads_child_iff he).1 hx with rfl | hx
    · exact .inl (hid.step he)
    · exact ih hx

/-- A node is below one child at most. -/
lemma Shaped.child_unique {e e' : Edge} (h : a.Shaped) (he : e ∈ a.edgesOf x) (he' : e' ∈ a.edgesOf x)
    (hk : a.Leads e.child k) (hk' : a.Leads e'.child k) : e.child = e'.child := by
  rcases h.leads_total hk hk' with hleads | hleads
  · exact ((h.leads_child_iff he').1 hleads).resolve_right (h.child_not_leads he)
  · exact (((h.leads_child_iff he).1 hleads).resolve_right (h.child_not_leads he')).symm

/-- No edge leads to a root. -/
lemma Shaped.root_unique {e : Edge} (h : a.Shaped) (hs : a.station? e.child = some s)
    (hroot : s.parent = none) : e ∉ a.edgesOf x := by
  intro he
  obtain ⟨s', -, hchild⟩ := h.child he
  rw [hs, Option.some.injEq] at hchild
  rw [hchild] at hroot
  cases hroot

/-- Only a root itself leads to it. -/
lemma Shaped.eq_of_leads_root (h : a.Shaped) (hs : a.station? k = some s) (hroot : s.parent = none)
    (hleads : a.Leads id k) : id = k := by
  cases hleads with
  | refl => rfl
  | step _ he => exact absurd he (h.root_unique hs hroot)

/-! ## Values -/

lemma Revalued.station? (h : Revalued a a') (id : NodeId) : a'.station? id = a.station? id := by
  have hbind : ∀ b : Arena R, b.station? id = (b.find? id).bind fun n => some n.station := fun b => by
    rw [Arena.station?, Option.map_eq_bind]
    rfl
  rw [hbind, hbind]
  exact h.bind_find? (fun _ => rfl) id

lemma Revalued.edgesOf (h : Revalued a a') (id : NodeId) : a'.edgesOf id = a.edgesOf id := by
  unfold Arena.edgesOf
  rw [h.bind_find? (fun _ => rfl) id]

lemma Revalued.leads_iff (h : Revalued a a') : a'.Leads root id ↔ a.Leads root id := by
  constructor <;> intro hleads
  · induction hleads with
    | refl => exact .refl
    | step _ he ih => exact ih.step (h.edgesOf _ ▸ he)
  · induction hleads with
    | refl => exact .refl
    | step _ he ih => exact ih.step ((h.edgesOf _).symm ▸ he)

/-- Whatever a node is but its valuation is the same. -/
lemma Revalued.exists_find? {n' : Node R} (h : Revalued a a') (hn' : a'.find? id = some n') :
    ∃ n, a.find? id = some n ∧ n'.unvalued = n.unvalued := by
  have hnodes := h.nodes id
  rw [hn', Option.map_some] at hnodes
  obtain ⟨n, hn, heq⟩ := Option.map_eq_some_iff.1 hnodes.symm
  exact ⟨n, hn, heq.symm⟩

lemma Revalued.shaped (h : Revalued a a') (hshaped : a.Shaped) : a'.Shaped := by
  refine ⟨h.orderly hshaped.orderly, fun id n' hn' => ?_⟩
  obtain ⟨n, hn, heq⟩ := h.exists_find? hn'
  have hupright := hshaped.upright id n hn
  have hedges : n'.edgeList = n.edgeList :=
    (by rw [heq] : n'.unvalued.edgeList = n.unvalued.edgeList)
  have hstation : n'.station = n.station := (by rw [heq] : n'.unvalued.station = n.unvalued.station)
  refine ⟨fun e he => ?_, fun k hk => ?_⟩
  · rw [h.station?, hupright.child e (hedges ▸ he), hstation]
  · rw [hedges]
    refine hupright.filed k ?_
    obtain ⟨b, hb, o, ho⟩ := hk
    exact ⟨b, (by rw [heq] : n.unvalued.knowledge = n'.unvalued.knowledge).trans hb, o, ho⟩

lemma resolve?_ofNat_eq_ok (h : a.resolve? (Int.ofNat x) = .ok id) : x = id := by
  have hnonneg : ¬Int.ofNat x < 0 := Int.not_lt.2 (Int.natCast_nonneg x)
  rw [resolve?, if_neg hnonneg] at h
  cases hx : a.node? (Int.ofNat x).toNat with
  | error f =>
    rw [hx] at h
    cases h
  | ok m =>
    rw [hx] at h
    exact Except.ok.inj h

lemma resolve?_ofNat (hn : a.find? x = some n) : a.resolve? (Int.ofNat x) = .ok x := by
  have hnonneg : ¬Int.ofNat x < 0 := Int.not_lt.2 (Int.natCast_nonneg x)
  rw [resolve?, if_neg hnonneg, node?, show (Int.ofNat x).toNat = x from rfl, hn]
  rfl

section Credits

variable [Scalar R] {utility : R} {below below' : NodeId → Prop}

/-- Some nodes take a utility into their valuations, and nothing else changes. -/
structure Credits (below : NodeId → Prop) (utility : R) (a a' : Arena R) : Prop extends Revalued a a' where
  taken : ∀ id, below id → a'.valuation? id = Valuation.take (a.valuation? id) utility
  kept : ∀ id, ¬below id → a'.valuation? id = a.valuation? id

lemma Credits.none : Credits (fun _ => False) utility a a := ⟨.refl, fun _ h => h.elim, fun _ _ => rfl⟩

/-- First some nodes take a utility, then others. -/
lemma Credits.then (h : Credits below utility a a') (h' : Credits below' utility a' a'')
    (hdisjoint : ∀ id, below id → ¬below' id) : Credits (fun id => below id ∨ below' id) utility a a'' := by
  refine ⟨h.toRevalued.trans h'.toRevalued, fun id hid => ?_, fun id hid => ?_⟩
  · rcases hid with hid | hid
    · rw [h'.kept id (hdisjoint id hid), h.taken id hid]
    · rw [h'.taken id hid, h.kept id fun hbelow => hdisjoint id hbelow hid]
  · rw [h'.kept id fun hbelow => hid (.inr hbelow), h.kept id fun hbelow => hid (.inl hbelow)]

lemma Credits.congr (h : Credits below utility a a') (hiff : ∀ id, below id ↔ below' id) :
    Credits below' utility a a' :=
  ⟨h.toRevalued, fun id hid => h.taken id ((hiff id).2 hid),
    fun id hid => h.kept id fun hbelow => hid ((hiff id).1 hbelow)⟩

lemma propagate_credits (h : propagate id utility a = .ok ⟨⟩ a') : Credits (· = id) utility a a' := by
  obtain ⟨n, a₁, hnode, hrest⟩ := Action.bind_eq_ok.1 h
  obtain ⟨hn, rfl⟩ := node_eq_ok.1 hnode
  -- the same node with the new valuation
  have hupdate : ∀ v, Valuation.take n.valuation utility = some v → a' =
      a₁.update id (fun n => { n with valuation := some v }) → Credits (· = id) utility a₁ a' := by
    rintro v hv rfl
    refine ⟨revalued_update fun _ => some v, fun x hx => ?_, fun x hx => ?_⟩
    · rw [hx, valuation?, find?_update, if_pos rfl, hn, valuation?_of_find? hn, hv]
      rfl
    · rw [valuation?, valuation?, find?_update, if_neg hx]
  cases hvaluation : n.valuation with
  | some v =>
    rw [hvaluation] at hrest
    cases hrest
    exact hupdate _ (by rw [hvaluation]; rfl) rfl
  | none =>
    rw [hvaluation] at hrest
    obtain ⟨v, hv, hchange⟩ := Action.lift_bind_eq_ok.1 hrest
    cases hchange
    exact hupdate v (by rw [hvaluation, Valuation.ofUtility?_eq_ok hv]; rfl) rfl

/-- The nodes above a node below a root take in a utility. -/
theorem propagateUp_credits {b : Arena R} {fuel : Nat} (h : a.Shaped) (hroot : a.station? root = some s)
    (hparent : s.parent = none) (hleads : a.Leads root k) (hb : Revalued a b) (hn : b.find? k = some n)
    (hrun : propagateUp utility fuel n.parent b = .ok ⟨⟩ a') :
    Credits (fun id => id ≠ k ∧ a.Leads id k) utility b a' := by
  have hparents : ∀ {s}, a.station? k = some s → n.parent = s.parent := fun {s} hs => by
    rw [← hb.station?, station?_of_find? hn, Option.some.injEq] at hs
    exact congrArg Station.parent hs
  -- along the path of edges from the root, which the parents lead back
  induction hleads generalizing b fuel n with
  | refl =>
    rw [(hparents hroot).trans hparent] at hrun
    have hsame : a' = b := by
      cases fuel <;> (cases hrun; rfl)
    subst hsame
    exact Credits.none.congr fun id => ⟨False.elim, fun ⟨hne, hid⟩ => hne (h.eq_of_leads_root hroot hparent hid)⟩
  | @step x e _ he ih =>
    obtain ⟨s', -, hchild⟩ := h.child he
    rw [show n.parent = some (Int.ofNat x) from hparents hchild] at hrun
    cases fuel with
    | zero => cases hrun
    | succ fuel =>
      rw [propagateUp, Action.bind_of_ok (Action.get_run b)] at hrun
      obtain ⟨id, hid, h₁⟩ := Action.lift_bind_eq_ok.1 hrun
      obtain rfl := resolve?_ofNat_eq_ok hid
      obtain ⟨_, b₁, hpropagate, h₂⟩ := Action.bind_eq_ok.1 h₁
      obtain ⟨m, b₂, hnode, h₃⟩ := Action.bind_eq_ok.1 h₂
      obtain ⟨hm, rfl⟩ := node_eq_ok.1 hnode
      have hself := propagate_credits hpropagate
      have hb₂ := hb.trans hself.toRevalued
      have hup := ih hb₂ hm h₃ fun {s} hs => by
        rw [← hb₂.station?, station?_of_find? hm, Option.some.injEq] at hs
        exact congrArg Station.parent hs
      refine (hself.then hup fun x hx hne => hne.1 hx).congr fun y => ?_
      rw [h.leads_child_iff he]
      constructor
      · rintro (rfl | ⟨-, hy⟩)
        · exact ⟨fun heq => h.child_not_leads he (heq ▸ .refl), .inr .refl⟩
        · exact ⟨fun heq => h.child_not_leads he (heq ▸ hy), .inr hy⟩
      · rintro ⟨hne, hy | hy⟩
        · exact absurd hy hne
        · by_cases hyx : y = x
          · exact .inl hyx
          · exact .inr ⟨hyx, hy⟩

/-- A node below a root and all nodes above it take in a utility. -/
theorem backpropagate_credits (h : a.Shaped) (hroot : a.station? root = some s) (hparent : s.parent = none)
    (hleads : a.Leads root k) (hself : propagate k utility a = .ok ⟨⟩ a')
    (hup : backpropagate k utility a' = .ok ⟨⟩ a'') : Credits (a.Leads · k) utility a a'' := by
  have hfirst := propagate_credits hself
  obtain ⟨bound, a₁, hbound, h₁⟩ := Action.bind_eq_ok.1 hup
  cases hbound
  obtain ⟨n, a₂, hnode, h₂⟩ := Action.bind_eq_ok.1 h₁
  obtain ⟨hn, rfl⟩ := node_eq_ok.1 hnode
  have hrest := propagateUp_credits h hroot hparent hleads hfirst.toRevalued hn h₂
  refine (hfirst.then hrest fun id hid hne => hne.1 hid).congr fun id => ⟨?_, fun hid => ?_⟩
  · rintro (rfl | ⟨-, hid⟩)
    · exact .refl
    · exact hid
  · by_cases hk : id = k
    · exact .inl hk
    · exact .inr ⟨hk, hid⟩

/-- A utility that can be the first of a node is taken in by any node. -/
lemma propagate_ensures (utility : R) (hn : a.find? id = some n) :
    Action.Ensures (fun f => Valuation.ofUtility? utility ≠ .error f) (propagate id utility) a
      fun _ a' => Credits (· = id) utility a a' := by
  have hruns : Action.Ensures (fun f => Valuation.ofUtility? utility ≠ .error f) (propagate id utility) a
      fun _ _ => True := by
    unfold propagate
    refine Action.ensures_bind_of_ok (node_of_find? hn) ?_
    cases n.valuation with
    | some v => exact Action.ensures_of_ok rfl trivial
    | none =>
      refine (Action.ensures_lift fun f hf hnot => hnot hf).bind fun v a' _ => ?_
      exact Action.ensures_of_ok rfl trivial
  exact hruns.adding fun _ _ hrun => propagate_credits hrun

/-- So do all nodes above a node below a root: there are no more of them than places in the arena. -/
lemma propagateUp_ensures (utility : R) (h : a.Shaped) (hroot : a.station? root = some s) (hparent : s.parent = none)
    (hleads : a.Leads root k) : ∃ above : List NodeId, k ∈ above ∧ above.Nodup ∧
      (∀ x ∈ above, a.contains x = true ∧ a.Leads x k) ∧
      ∀ b fuel n, Revalued a b → b.find? k = some n → above.length ≤ fuel + 1 →
        Action.Ensures (fun f => Valuation.ofUtility? utility ≠ .error f) (propagateUp utility fuel n.parent) b
          fun _ _ => True := by
  have hparents : ∀ {x s b n}, a.station? x = some s → Revalued a b → b.find? x = some n →
      n.parent = s.parent := fun {x s b n} hs hb hn => by
    rw [← hb.station?, station?_of_find? hn, Option.some.injEq] at hs
    exact congrArg Station.parent hs
  induction hleads with
  | refl =>
    obtain ⟨r, hr, -⟩ := station?_eq_some.1 hroot
    refine ⟨[root], List.mem_singleton_self root, List.nodup_singleton root, fun x hx => ?_, fun b fuel n hb hn _ => ?_⟩
    · rw [List.mem_singleton.1 hx]
      exact ⟨contains_iff.2 ⟨r, hr⟩, .refl⟩
    · rw [hparents hroot hb hn, hparent]
      cases fuel <;> exact Action.ensures_of_ok rfl trivial
  | @step x e _ he ih =>
    obtain ⟨above, hin, hnodup, habove, hruns⟩ := ih
    obtain ⟨s', hs', hchild⟩ := h.child he
    obtain ⟨c, hc, -⟩ := station?_eq_some.1 hchild
    refine ⟨e.child :: above, List.mem_cons_self, List.nodup_cons.2 ⟨fun hmem => ?_, hnodup⟩, fun y hy => ?_,
      fun b fuel n hb hn hfuel => ?_⟩
    · exact h.child_not_leads he (habove _ hmem).2
    · rcases List.mem_cons.1 hy with rfl | hy
      · exact ⟨contains_iff.2 ⟨c, hc⟩, .refl⟩
      · exact ⟨(habove y hy).1, (habove y hy).2.step he⟩
    · rw [show n.parent = some (Int.ofNat x) from hparents hchild hb hn]
      have hpos : 0 < above.length := List.length_pos_of_mem hin
      rw [List.length_cons] at hfuel
      obtain ⟨fuel, rfl⟩ : ∃ m, fuel = m + 1 := ⟨fuel - 1, by omega⟩
      obtain ⟨m, hm, -⟩ := station?_eq_some.1 ((hb.station? x).trans hs')
      rw [propagateUp]
      refine Action.ensures_bind_of_ok (Action.get_run b) ?_
      refine Action.ensures_bind_of_ok (Action.lift_of_ok (resolve?_ofNat hm) b) ?_
      refine (propagate_ensures utility hm).bind fun _ b' hcredits => ?_
      have hb' := hb.trans hcredits.toRevalued
      obtain ⟨m', hm', -⟩ := station?_eq_some.1 ((hb'.station? x).trans hs')
      refine Action.ensures_bind_of_ok (node_of_find? hm') (hruns b' fuel m' hb' hm' ?_)
      omega

/-- A node below a root and all nodes above it take in a utility that can be the first of a node. -/
lemma backpropagate_ensures (h : a.Shaped) (hroot : a.station? root = some s) (hparent : s.parent = none)
    (hleads : a.Leads root k) (hrevalued : Revalued a a') :
    Action.Ensures (fun f => Valuation.ofUtility? utility ≠ .error f) (backpropagate k utility) a'
      fun _ _ => True := by
  obtain ⟨above, hin, hnodup, habove, hruns⟩ := propagateUp_ensures utility h hroot hparent hleads
  have hcontains : ∀ x, a'.contains x = a.contains x := fun x => by
    have hnodes := congrArg Option.isSome (hrevalued.nodes x)
    rwa [Option.isSome_map, Option.isSome_map] at hnodes
  obtain ⟨n, hn⟩ := contains_iff.1 ((hcontains k).trans (habove k hin).1)
  refine Action.ensures_bind_of_ok (a := a'.slots.size + 1) (t := a') rfl ?_
  refine Action.ensures_bind_of_ok (node_of_find? hn) (hruns a' _ n hrevalued hn ?_)
  have hle := length_le_of_nodup_of_live hnodup fun x hx => (hcontains x).trans (habove x hx).1
  omega

end Credits

end Arena

end GameSearch
