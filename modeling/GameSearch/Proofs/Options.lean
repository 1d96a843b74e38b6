import Mathlib.Algebra.GroupWithZero.Nat
import Mathlib.Data.List.Basic
import Mathlib.Data.List.Nodup
import GameSearch.Proofs.Tree.Shape
import GameSearch.Search.Selector

/-!
# The options of a node

The options of a node are found edge by edge.  `gather_eq` says what comes out of it: one option for each
key, in the order in which the keys first appear, made from the children that edges with this key lead to.
Only the distinct children count, so an edge that is there twice makes no difference.
-/

namespace GameSearch

/-! ## Lists without what is there before -/

section Distinct

variable {α : Type} [BEq α] [LawfulBEq α] {l : List α} {x : α}

lemma eraseDups_concat_of_mem (h : x ∈ l) : (l ++ [x]).eraseDups = l.eraseDups := by
  have hnone : [x].removeAll l = [] := by simp [List.removeAll, h]
  rw [List.eraseDups_append, hnone, List.eraseDups_nil, List.append_nil]

lemma eraseDups_concat_of_not_mem (h : x ∉ l) : (l ++ [x]).eraseDups = l.eraseDups ++ [x] := by
  have hone : [x].removeAll l = [x] := by simp [List.removeAll, h]
  rw [List.eraseDups_append, hone, List.eraseDups_cons]
  rfl

lemma nodup_eraseDups (l : List α) : l.eraseDups.Nodup := by
  induction l using List.reverseRecOn with
  | nil => exact List.nodup_nil
  | append_singleton l x ih =>
    by_cases hx : x ∈ l
    · rwa [eraseDups_concat_of_mem hx]
    · rw [eraseDups_concat_of_not_mem hx]
      refine List.nodup_append.2 ⟨ih, List.nodup_singleton x, fun y hy z hz => ?_⟩
      rintro rfl
      exact hx (List.mem_singleton.1 hz ▸ List.mem_eraseDups.1 hy)

lemma eraseDups_of_nodup (h : l.Nodup) : l.eraseDups = l := by
  induction l using List.reverseRecOn with
  | nil => rfl
  | append_singleton l x ih =>
    obtain ⟨hl, -, hdisjoint⟩ := List.nodup_append.1 h
    rw [eraseDups_concat_of_not_mem fun hx => hdisjoint x hx x (List.mem_singleton.2 rfl) rfl, ih hl]

lemma eraseDups_map_of_injective {β : Type} [BEq β] [LawfulBEq β] {f : α → β} (hf : Function.Injective f)
    (l : List α) : (l.map f).eraseDups = l.eraseDups.map f := by
  induction l using List.reverseRecOn with
  | nil => rfl
  | append_singleton l x ih =>
    rw [List.map_append, List.map_singleton]
    by_cases hx : x ∈ l
    · rw [eraseDups_concat_of_mem (List.mem_map_of_mem hx), eraseDups_concat_of_mem hx, ih]
    · rw [eraseDups_concat_of_not_mem (mt (List.mem_map_of_injective hf).1 hx), eraseDups_concat_of_not_mem hx, ih,
        List.map_append, List.map_singleton]

/-- What depends on the distinct elements only. -/
lemma eraseDups_map_eraseDups {β : Type} [BEq β] [LawfulBEq β] (f : α → β) (l : List α) :
    (l.eraseDups.map f).eraseDups = (l.map f).eraseDups := by
  induction l using List.reverseRecOn with
  | nil => rfl
  | append_singleton l x ih =>
    by_cases hx : x ∈ l
    · rw [eraseDups_concat_of_mem hx, ih, List.map_append, List.map_singleton,
        eraseDups_concat_of_mem (List.mem_map_of_mem hx)]
    · rw [eraseDups_concat_of_not_mem hx, List.map_append, List.map_append, List.eraseDups_append,
        List.eraseDups_append, ih]
      have hsame : f x ∈ l.eraseDups.map f ↔ f x ∈ l.map f := by simp only [List.mem_map, List.mem_eraseDups]
      by_cases hf : f x ∈ l.map f
      · simp [List.removeAll, hf, hsame.2 hf]
      · simp [List.removeAll, hf, mt hsame.1 hf]

lemma filter_eraseDups (p : α → Bool) (l : List α) : l.eraseDups.filter p = (l.filter p).eraseDups := by
  induction l using List.reverseRecOn with
  | nil => rfl
  | append_singleton l x ih =>
    by_cases hx : x ∈ l
    · rw [eraseDups_concat_of_mem hx, ih, List.filter_append]
      cases hp : p x with
      | true =>
        rw [List.filter_cons_of_pos hp, List.filter_nil,
          eraseDups_concat_of_mem (List.mem_filter.2 ⟨hx, hp⟩)]
      | false => rw [List.filter_cons_of_neg (by simp [hp]), List.filter_nil, List.append_nil]
    · rw [eraseDups_concat_of_not_mem hx, List.filter_append, List.filter_append, ih]
      cases hp : p x with
      | true =>
        rw [List.filter_cons_of_pos hp, List.filter_nil,
          eraseDups_concat_of_not_mem fun h => hx (List.mem_filter.1 h).1]
      | false => rw [List.filter_cons_of_neg (by simp [hp]), List.filter_nil, List.append_nil, List.append_nil]

end Distinct

namespace Candidate

variable {R : Type} [Scalar R] {c : Candidate R} {key : Edge.Key} {child : NodeId} {v : Option (Valuation R)}
  {valuation : NodeId → Option (Valuation R)} {children : List NodeId} {offers : List (Edge.Key × NodeId)}

/-! ## One option -/

/-- How many playouts a child contributes. -/
def contributed (v : Option (Valuation R)) : Nat := (v.map Valuation.playouts).getD 0

@[simp] lemma key_addChild (c : Candidate R) (child : NodeId) (v : Option (Valuation R)) :
    (c.addChild child v).key = c.key := by
  unfold addChild
  split
  · rfl
  · cases v with
    | none => rfl
    | some v =>
      simp only
      split <;> rfl

lemma addChild_of_mem (h : child ∈ c.children) : c.addChild child v = c := by
  rw [addChild, if_pos (by simpa using h)]

lemma children_addChild (h : child ∉ c.children) : (c.addChild child v).children = c.children.push child := by
  rw [addChild, if_neg (by simpa using h)]
  cases v with
  | none => rfl
  | some v =>
    simp only
    split <;> rfl

lemma playouts_addChild (h : child ∉ c.children) :
    (c.addChild child v).playouts = c.playouts + contributed v := by
  rw [addChild, if_neg (by simpa using h)]
  cases v with
  | none => rfl
  | some v =>
    simp only
    split
    · next hzero => simp [contributed, hzero]
    · rfl

/-- The option that leads to some children, added one after the other. -/
def ofChildren (valuation : NodeId → Option (Valuation R)) (key : Edge.Key) (children : List NodeId) :
    Candidate R :=
  children.foldl (fun c child => c.addChild child (valuation child)) (ofKey key)

lemma ofChildren_concat (valuation : NodeId → Option (Valuation R)) (key : Edge.Key) (children : List NodeId)
    (child : NodeId) : ofChildren valuation key (children ++ [child]) =
      (ofChildren valuation key children).addChild child (valuation child) := by
  rw [ofChildren, List.foldl_append]
  rfl

@[simp] lemma key_ofChildren (valuation : NodeId → Option (Valuation R)) (key : Edge.Key) (children : List NodeId) :
    (ofChildren valuation key children).key = key := by
  induction children using List.reverseRecOn with
  | nil => rfl
  | append_singleton children child ih => rw [ofChildren_concat, key_addChild, ih]

lemma children_ofChildren (valuation : NodeId → Option (Valuation R)) (key : Edge.Key) (children : List NodeId) :
    (ofChildren valuation key children).children = children.eraseDups.toArray := by
  induction children using List.reverseRecOn with
  | nil => rfl
  | append_singleton children child ih =>
    rw [ofChildren_concat]
    by_cases hin : child ∈ children
    · rw [addChild_of_mem (by simpa [ih, List.mem_eraseDups] using hin), ih, eraseDups_concat_of_mem hin]
    · rw [children_addChild (by simpa [ih, List.mem_eraseDups] using hin), ih, eraseDups_concat_of_not_mem hin,
        List.push_toArray]

lemma mem_children_ofChildren : child ∈ (ofChildren valuation key children).children ↔ child ∈ children := by
  rw [children_ofChildren, List.mem_toArray, List.mem_eraseDups]

/-- A child that is led to already makes no difference. -/
lemma ofChildren_concat_of_mem (h : child ∈ children) :
    ofChildren valuation key (children ++ [child]) = ofChildren valuation key children := by
  rw [ofChildren_concat, addChild_of_mem (mem_children_ofChildren.2 h)]

lemma ofChildren_eraseDups (valuation : NodeId → Option (Valuation R)) (key : Edge.Key) (children : List NodeId) :
    ofChildren valuation key children.eraseDups = ofChildren valuation key children := by
  induction children using List.reverseRecOn with
  | nil => rfl
  | append_singleton children child ih =>
    by_cases hin : child ∈ children
    · rw [eraseDups_concat_of_mem hin, ih, ofChildren_concat_of_mem hin]
    · rw [eraseDups_concat_of_not_mem hin, ofChildren_concat, ih, ofChildren_concat]

/-- Its playouts are those of its distinct children. -/
theorem playouts_ofChildren (valuation : NodeId → Option (Valuation R)) (key : Edge.Key) (children : List NodeId) :
    (ofChildren valuation key children).playouts =
      (children.eraseDups.map fun child => contributed (valuation child)).sum := by
  induction children using List.reverseRecOn with
  | nil => rfl
  | append_singleton children child ih =>
    by_cases hin : child ∈ children
    · rw [ofChildren_concat_of_mem hin, ih, eraseDups_concat_of_mem hin]
    · rw [ofChildren_concat, playouts_addChild (mt mem_children_ofChildren.1 hin), ih,
        eraseDups_concat_of_not_mem hin, List.map_append, List.sum_append, List.map_singleton, List.sum_singleton]

/-! ## Several options -/

/-- The options that come from keys and the children they lead to, one after the other. -/
def gather (valuation : NodeId → Option (Valuation R)) (offers : List (Edge.Key × NodeId)) : Array (Candidate R) :=
  offers.foldl (fun options x => addTo options x.1 x.2 (valuation x.2)) #[]

/-- The children that some offers with a key lead to. -/
def childrenOf (offers : List (Edge.Key × NodeId)) (key : Edge.Key) : List NodeId :=
  (offers.filter (·.1 = key)).map Prod.snd

lemma childrenOf_concat (offers : List (Edge.Key × NodeId)) (key k : Edge.Key) (child : NodeId) :
    childrenOf (offers ++ [(key, child)]) k =
      if k = key then childrenOf offers k ++ [child] else childrenOf offers k := by
  unfold childrenOf
  rw [List.filter_append, List.map_append]
  split
  · next h => simp [h]
  · next h => simp [Ne.symm h]

/-- Adding to an option that is there already. -/
lemma addTo_of_mem {keys : List Edge.Key} {f : Edge.Key → Candidate R} (hf : ∀ k, (f k).key = k)
    (hnodup : keys.Nodup) (h : key ∈ keys) : addTo (keys.map f).toArray key child v =
      (keys.map fun k => if k = key then (f k).addChild child v else f k).toArray := by
  obtain ⟨i, hi, rfl⟩ := List.mem_iff_getElem.1 h
  have hfind : (keys.map f).toArray.findIdx? (·.key = keys[i]) = some i := by
    refine Array.findIdx?_eq_some_iff_getElem.2 ⟨by simpa using hi, by simp [hf], fun j hj => ?_⟩
    have hne : keys[j] ≠ keys[i] := fun he => hj.ne (hnodup.getElem_inj_iff.1 he)
    simp [hf, hne]
  simp only [addTo, hfind]
  apply Array.ext
  · simp
  · intro j hj _
    have hlt : j < keys.length := by simpa using hj
    simp only [Array.getElem_modify, List.getElem_toArray, List.getElem_map, hnodup.getElem_inj_iff]
    by_cases hij : i = j
    · simp [hij]
    · rw [if_neg hij, if_neg (Ne.symm hij)]

lemma addTo_of_not_mem {keys : List Edge.Key} {f : Edge.Key → Candidate R} (hf : ∀ k, (f k).key = k)
    (h : key ∉ keys) : addTo (keys.map f).toArray key child v =
      (keys.map f ++ [(ofKey key).addChild child v]).toArray := by
  have hfind : (keys.map f).toArray.findIdx? (·.key = key) = none := by
    refine Array.findIdx?_eq_none_iff.2 fun c hc => ?_
    obtain ⟨k, hk, rfl⟩ := List.mem_map.1 (List.mem_toArray.1 hc)
    simpa [hf] using fun he : k = key => h (he ▸ hk)
  simp only [addTo, hfind]
  rw [List.push_toArray]

/-- One option for each key, in the order in which the keys first appear. -/
theorem gather_eq (valuation : NodeId → Option (Valuation R)) (offers : List (Edge.Key × NodeId)) :
    gather valuation offers =
      ((offers.map Prod.fst).eraseDups.map fun k => ofChildren valuation k (childrenOf offers k)).toArray := by
  induction offers using List.reverseRecOn with
  | nil => rfl
  | append_singleton offers x ih =>
    obtain ⟨key, child⟩ := x
    have hstep : gather valuation (offers ++ [(key, child)]) =
        addTo (gather valuation offers) key child (valuation child) := by
      rw [gather, List.foldl_append]
      rfl
    have hchange (k : Edge.Key) : ofChildren valuation k (childrenOf (offers ++ [(key, child)]) k) =
        if k = key then (ofChildren valuation k (childrenOf offers k)).addChild child (valuation child)
        else ofChildren valuation k (childrenOf offers k) := by
      rw [childrenOf_concat]
      split
      · rw [ofChildren_concat]
      · rfl
    rw [hstep, ih, List.map_append, List.map_singleton]
    by_cases hkey : key ∈ offers.map Prod.fst
    · rw [addTo_of_mem (fun k => key_ofChildren valuation k _) (nodup_eraseDups _) (List.mem_eraseDups.2 hkey),
        eraseDups_concat_of_mem hkey]
      simp only [hchange]
    · rw [addTo_of_not_mem (fun k => key_ofChildren valuation k _) (mt List.mem_eraseDups.1 hkey),
        eraseDups_concat_of_not_mem hkey, List.map_append, List.map_singleton]
      have hnew : childrenOf offers key = [] := by
        refine List.map_eq_nil_iff.2 (List.filter_eq_nil_iff.2 fun x hx => ?_)
        simpa using fun he : x.1 = key => hkey (List.mem_map.2 ⟨x, hx, he⟩)
      have hold : ∀ k ∈ (offers.map Prod.fst).eraseDups,
          ofChildren valuation k (childrenOf (offers ++ [(key, child)]) k) =
            ofChildren valuation k (childrenOf offers k) := by
        intro k hk
        have hne : k ≠ key := by
          rintro rfl
          exact hkey (List.mem_eraseDups.1 hk)
        rw [hchange, if_neg hne]
      rw [List.map_congr_left hold, hchange, if_pos rfl, hnew]
      rfl

lemma childrenOf_of_nodup (h : (offers.map Prod.fst).Nodup) {x : Edge.Key × NodeId} (hx : x ∈ offers) :
    childrenOf offers x.1 = [x.2] := by
  induction offers with
  | nil => cases hx
  | cons y offers ih =>
    obtain ⟨hout, hnodup⟩ := List.nodup_cons.1 h
    rcases List.mem_cons.1 hx with rfl | hx
    · have hnone : offers.filter (·.1 = x.1) = [] := by
        refine List.filter_eq_nil_iff.2 fun z hz => ?_
        simpa using fun he : z.1 = x.1 => hout (List.mem_map.2 ⟨z, hz, he⟩)
      rw [childrenOf, List.filter_cons_of_pos (by simp), hnone]
      rfl
    · have hne : y.1 ≠ x.1 := fun he => hout (List.mem_map.2 ⟨x, hx, he.symm⟩)
      rw [childrenOf, List.filter_cons_of_neg (by simpa using hne)]
      exact ih hnodup hx

/-- Where no two offers have the same key, each is an option of its own. -/
lemma gather_of_nodup (h : (offers.map Prod.fst).Nodup) :
    gather valuation offers = (offers.map fun x => ofChildren valuation x.1 [x.2]).toArray := by
  rw [gather_eq, eraseDups_of_nodup h, List.map_map]
  congr 1
  refine List.map_congr_left fun x hx => ?_
  rw [Function.comp_apply, childrenOf_of_nodup h hx]

/-- Offers that are made again make no difference. -/
theorem gather_eraseDups (valuation : NodeId → Option (Valuation R)) (offers : List (Edge.Key × NodeId)) :
    gather valuation offers.eraseDups = gather valuation offers := by
  rw [gather_eq, gather_eq, eraseDups_map_eraseDups]
  congr 1
  refine List.map_congr_left fun k _ => ?_
  rw [← ofChildren_eraseDups, childrenOf, filter_eraseDups, eraseDups_map_eraseDups, ← childrenOf,
    ofChildren_eraseDups]

lemma gather_congr {valuation' : NodeId → Option (Valuation R)}
    (h : ∀ x ∈ offers, valuation' x.2 = valuation x.2) : gather valuation' offers = gather valuation offers := by
  unfold gather
  refine List.foldl_ext _ _ _ fun options x hx => ?_
  rw [h x hx]

end Candidate

namespace Arena

variable {R : Type} [Scalar R] {a : Arena R} {id : NodeId} {edges : Array Edge}

/-- Whether an edge leads out of another world than the one that is singled out. -/
def Elsewhere (world : Option State) (e : Edge) : Prop :=
  (world.any fun w => e.key.world.any (· ≠ w)) = true

instance (world : Option State) (e : Edge) : Decidable (Elsewhere world e) :=
  inferInstanceAs (Decidable (_ = true))

omit [Scalar R] in
lemma exists_node_of_edges? (hedges : a.edges? id = .ok edges) : ∃ n, a.node? id = .ok n := by
  unfold edges? at hedges
  cases hn : a.node? id with
  | ok n => exact ⟨n, rfl⟩
  | error e =>
    rw [hn] at hedges
    cases hedges

/-- The options of a node come from the edges that count. -/
theorem group?_eq (hedges : a.edges? id = .ok edges)
    (hchildren : ∀ e ∈ edges.toList, ∃ n, a.find? e.child = some n) (world : Option State)
    (keyOf : Edge → Edge.Key) : a.group? id world keyOf = .ok (Candidate.gather a.valuation?
      ((edges.toList.filter (¬Elsewhere world ·)).map fun e => (keyOf e, e.child))) := by
  have hfold : ∀ (l : List Edge) (options : Array (Candidate R)), (∀ e ∈ l, e ∈ edges.toList) →
      l.foldlM (fun options e =>
          if (world.any fun w => e.key.world.any (· ≠ w)) = true then pure options
          else do
            let n ← a.node? e.child
            pure (Candidate.addTo options (keyOf e) e.child n.valuation)) options =
        (.ok (((l.filter (¬Elsewhere world ·)).map fun e => (keyOf e, e.child)).foldl (fun options x =>
          Candidate.addTo options x.1 x.2 (a.valuation? x.2)) options) : Except Fault _) := by
    intro l
    induction l with
    | nil => exact fun _ _ => rfl
    | cons e l ih =>
      intro options hl
      have hl' : ∀ e ∈ l, e ∈ edges.toList := fun e he => hl e (List.mem_cons_of_mem _ he)
      rw [List.foldlM_cons]
      by_cases hother : Elsewhere world e
      · rw [List.filter_cons_of_neg (by simpa using hother), if_pos (by exact hother)]
        exact ih options hl'
      · obtain ⟨n, hn⟩ := hchildren e (hl e List.mem_cons_self)
        rw [List.filter_cons_of_pos (by simpa using hother), List.map_cons, List.foldl_cons,
          if_neg (by exact hother), node?, hn, valuation?_of_find? hn]
        exact ih _ hl'
  have hrun := hfold edges.toList #[] fun _ he => he
  rw [Array.foldlM_toList] at hrun
  simp only [group?, hedges, bind, Except.bind]
  exact hrun

/-- Where no world is singled out, all edges count. -/
lemma filter_elsewhere_none (l : List Edge) : l.filter (¬Elsewhere none ·) = l :=
  List.filter_eq_self.2 fun e _ => by simp [Elsewhere]

/-- The options of a node have the keys of the edges that count. -/
theorem group?_yields (hedges : a.edges? id = .ok edges)
    (hchildren : ∀ e ∈ edges.toList, ∃ n, a.find? e.child = some n) (world : Option State)
    (keyOf : Edge → Edge.Key) : ∃ options, a.group? id world keyOf = .ok options ∧
      ∀ k, (∃ c ∈ options, c.key = k) ↔ ∃ e ∈ edges.toList, ¬Elsewhere world e ∧ keyOf e = k := by
  refine ⟨_, group?_eq hedges hchildren world keyOf, fun k => ?_⟩
  rw [Candidate.gather_eq]
  simp [List.mem_eraseDups, and_assoc]

end Arena

end GameSearch
