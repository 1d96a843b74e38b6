import Mathlib.Algebra.Order.BigOperators.Group.List
import GameSearch.Proofs.Options
import GameSearch.Proofs.Perfect.Balance

/-!
# Children that are tried in turn

Where an untried child comes before all others, the children that have been tried are always the first ones,
each of them once until all have been tried.  `Arena.TakesTurns` says so of all nodes whose owners are free.  It is
kept between simulations, and by a simulation that goes on to the child whose turn it is at each node on its
way.
-/

namespace GameSearch

/-! ## Lists -/

section Lists

variable {α : Type} {f f' : α → Nat} {l : List α} {k : Nat} {x : α}

/-- The first `k` elements of a list have been tried and no others, each of them once unless all have been. -/
structure TriedInTurn (f : α → Nat) (l : List α) (k : Nat) : Prop where
  le : k ≤ l.length
  tried : ∀ i (h : i < l.length), i < k → 0 < f l[i]
  untried : ∀ i (h : i < l.length), k ≤ i → f l[i] = 0
  once : k < l.length → ∀ i (h : i < l.length), i < k → f l[i] = 1

/-- It is the turn of an element if it is the first one that has not been tried, or if there is none. -/
def IsTurn (f : α → Nat) (l : List α) (x : α) : Prop :=
  (∃ i, ∃ h : i < l.length, l[i] = x ∧ f x = 0 ∧ ∀ j (hj : j < i), 0 < f l[j]) ∨ ∀ y ∈ l, 0 < f y

lemma triedInTurn_of_untried (h : ∀ y ∈ l, f y = 0) : TriedInTurn f l 0 :=
  ⟨Nat.zero_le _, fun _ _ hi => absurd hi (Nat.not_lt_zero _), fun _ hi _ => h _ (List.getElem_mem hi),
    fun _ _ _ hi => absurd hi (Nat.not_lt_zero _)⟩

lemma TriedInTurn.congr (h : TriedInTurn f l k) (hf : ∀ y ∈ l, f' y = f y) : TriedInTurn f' l k := by
  refine ⟨h.le, fun i hi hik => ?_, fun i hi hik => ?_, fun hk i hi hik => ?_⟩
  · rw [hf _ (List.getElem_mem hi)]
    exact h.tried i hi hik
  · rw [hf _ (List.getElem_mem hi)]
    exact h.untried i hi hik
  · rw [hf _ (List.getElem_mem hi)]
    exact h.once hk i hi hik

/-- The element whose turn it is is tried once more. -/
theorem TriedInTurn.next [DecidableEq α] (h : TriedInTurn f l k) (hnodup : l.Nodup) (hturn : IsTurn f l x)
    (hf : ∀ y ∈ l, f' y = f y + if y = x then 1 else 0) : ∃ k', TriedInTurn f' l k' := by
  have hvalue : ∀ j (hj : j < l.length), f' l[j] = f l[j] + if l[j] = x then 1 else 0 := fun j hj =>
    hf _ (List.getElem_mem hj)
  rcases hturn with ⟨i, hi, rfl, hzero, hbefore⟩ | hall
  · -- the first untried element is the one at `k`
    have hik : i = k := by
      have hle : k ≤ i := by
        by_contra hlt
        have hpos := h.tried i hi (by omega)
        omega
      by_contra hne
      have hpos := hbefore k (by omega)
      have hnone := h.untried k (by omega) (le_refl k)
      omega
    subst hik
    have hstep : ∀ j (hj : j < l.length), f' l[j] = f l[j] + if j = i then 1 else 0 := by
      intro j hj
      simp only [hvalue j hj, hnodup.getElem_inj_iff]
    refine ⟨i + 1, by omega, fun j hj hlt => ?_, fun j hj hle => ?_, fun hlt j hj hji => ?_⟩
    · rw [hstep j hj]
      split
      · omega
      · have hpos := h.tried j hj (by omega)
        omega
    · rw [hstep j hj, if_neg (by omega), h.untried j hj (by omega)]
    · rw [hstep j hj]
      split
      · next heq =>
        subst heq
        omega
      · rw [h.once (by omega) j hj (by omega)]
  · -- all have been tried, so there is nothing more to show
    have hk : k = l.length := by
      have hle := h.le
      by_contra hne
      have hpos := hall _ (List.getElem_mem (by omega : k < l.length))
      have hzero := h.untried k (by omega) (le_refl k)
      omega
    refine ⟨l.length, le_refl _, fun j hj _ => ?_, fun j hj hle => absurd hj (by omega),
      fun hlt => absurd hlt (by omega)⟩
    rw [hvalue j hj]
    have hpos := hall _ (List.getElem_mem hj)
    omega

lemma TriedInTurn.filter_eq (h : TriedInTurn f l k) : l.filter (0 < f ·) = l.take k := by
  have htake : (l.take k).filter (0 < f ·) = l.take k := by
    refine List.filter_eq_self.2 fun y hy => ?_
    obtain ⟨i, hi, rfl⟩ := List.mem_iff_getElem.1 hy
    rw [List.length_take] at hi
    rw [List.getElem_take, decide_eq_true_eq]
    exact h.tried i (by omega) (by omega)
  have hdrop : (l.drop k).filter (0 < f ·) = [] := by
    refine List.filter_eq_nil_iff.2 fun y hy => ?_
    obtain ⟨i, hi, rfl⟩ := List.mem_iff_getElem.1 hy
    rw [List.length_drop] at hi
    rw [List.getElem_drop, decide_eq_true_eq, h.untried (k + i) (by omega) (by omega)]
    exact Nat.lt_irrefl 0
  conv_lhs => rw [← List.take_append_drop k l, List.filter_append, htake, hdrop, List.append_nil]

/-- As long as there are others, the elements have been tried as often as there are tried ones. -/
lemma TriedInTurn.sum_eq (h : TriedInTurn f l k) (hk : k < l.length) : (l.map f).sum = k := by
  have htake : (l.take k).map f = List.replicate k 1 := by
    refine List.ext_getElem (by simp; omega) fun i hi _ => ?_
    rw [List.length_map, List.length_take] at hi
    rw [List.getElem_map, List.getElem_take, List.getElem_replicate]
    exact h.once hk i (by omega) (by omega)
  have hdrop : (l.drop k).map f = List.replicate (l.length - k) 0 := by
    refine List.ext_getElem (by simp) fun i hi _ => ?_
    rw [List.length_map, List.length_drop] at hi
    rw [List.getElem_map, List.getElem_drop, List.getElem_replicate]
    exact h.untried (k + i) (by omega) (by omega)
  conv_lhs => rw [← List.take_append_drop k l, List.map_append, List.sum_append, htake, hdrop]
  simp

lemma length_le_sum (h : ∀ y ∈ l, 0 < f y) : l.length ≤ (l.map f).sum := by
  have hle := List.sum_le_sum (l := l) (f := fun _ => 1) fun y hy => h y hy
  simpa using hle

/-- The tried elements, by how often elements have been tried. -/
theorem TriedInTurn.tally (h : TriedInTurn f l k) :
    l.filter (0 < f ·) = l.take (min l.length (l.map f).sum) ∧
      ((l.map f).sum ≤ l.length → ∀ y ∈ l, 0 < f y → f y = 1) := by
  rw [h.filter_eq]
  rcases h.le.lt_or_eq with hlt | heq
  · rw [h.sum_eq hlt, min_eq_right hlt.le]
    refine ⟨rfl, fun _ y hy hpos => ?_⟩
    obtain ⟨i, hi, rfl⟩ := List.mem_iff_getElem.1 hy
    by_cases hik : i < k
    · exact h.once hlt i hi hik
    · rw [h.untried i hi (by omega)] at hpos
      exact absurd hpos (Nat.lt_irrefl 0)
  · have hall : ∀ y ∈ l, 0 < f y := by
      intro y hy
      obtain ⟨i, hi, rfl⟩ := List.mem_iff_getElem.1 hy
      exact h.tried i hi (by omega)
    rw [heq, min_eq_left (length_le_sum hall)]
    refine ⟨rfl, fun hle y hy hpos => ?_⟩
    by_contra hne
    have hmore := List.sum_lt_sum (fun _ : α => 1) f (l := l) (fun z hz => hall z hz) ⟨y, hy, by omega⟩
    simp at hmore
    omega

end Lists

/-- A game that lists no turn twice. -/
def Game.ListsOnce (game : Game) : Prop :=
  ∀ s next, game.successors? s = .ok next → (next.map Prod.fst).Nodup

/-! ## Nodes -/

namespace Node

variable {R : Type} {n : Node R}

/-- No two edges of a node have the same key or lead to the same child. -/
structure Forks (n : Node R) : Prop where
  keys : (n.edgeList.map Edge.key).Nodup
  children : (n.edgeList.map Edge.child).Nodup

lemma forks_of_none (h : n.edges = none) : n.Forks := by
  have hnil : n.edgeList = [] := by simp [edgeList, h]
  exact ⟨by simp [hnil], by simp [hnil]⟩

lemma Forks.children_eq (h : n.Forks) : n.children = n.edgeList.map Edge.child :=
  eraseDups_of_nodup h.children

end Node

namespace Arena

variable {R : Type} {a a' b : Arena R} {id k leaf : NodeId} {n : Node R} {game : Game}

/-- At each node whose owner is free, the children have been tried in the order of the edges. -/
structure TakesTurns (a : Arena R) : Prop where
  forks : ∀ id n, a.find? id = some n → n.move = none → n.Forks
  turns : ∀ id n, a.find? id = some n → n.move = none →
    ∃ k, TriedInTurn a.playouts (n.edgeList.map Edge.child) k

/-! ## Between simulations -/

lemma Added.takesTurns (h : Added ∅ k n a) (hn : n.Pristine) : a.TakesTurns := by
  have hnode : ∀ id m, a.find? id = some m → m = n := by
    intro id m hm
    rw [h.find?] at hm
    split at hm
    · exact (Option.some.inj hm).symm
    · simp [find?_empty] at hm
  have hnil : n.edgeList = [] := by simp [Node.edgeList, hn.edges]
  refine ⟨fun id m hm _ => hnode id m hm ▸ Node.forks_of_none hn.edges, fun id m hm _ => ⟨0, ?_⟩⟩
  rw [hnode id m hm, hnil]
  exact triedInTurn_of_untried (by simp)

/-- Between simulations no turn is skipped. -/
theorem TakesTurns.renew (h : a.TakesTurns) (hshaped : a'.Shaped) (hinherits : Inherits a a')
    (hrenews : Renews a a') : a'.TakesTurns := by
  have hcases : ∀ id n', a'.find? id = some n' → n'.move = none →
      n'.edges = none ∨ ∃ n, a.find? id = some n ∧ n.move = none ∧ n'.edgeList = n.edgeList := by
    intro id n' hn' hfree
    rcases hrenews id n' hn' with hnew | ⟨n, hn, hbecomes⟩
    · exact .inl hnew.edges
    · obtain ⟨hfree', hedges⟩ := hbecomes.free hfree
      exact .inr ⟨n, hn, hfree', by rw [Node.edgeList, hedges, Node.edgeList]⟩
  refine ⟨fun id n' hn' hfree => ?_, fun id n' hn' hfree => ?_⟩
  · rcases hcases id n' hn' hfree with hnone | ⟨n, hn, hfree', hedges⟩
    · exact Node.forks_of_none hnone
    · have hforks := h.forks id n hn hfree'
      exact ⟨hedges ▸ hforks.keys, hedges ▸ hforks.children⟩
  · rcases hcases id n' hn' hfree with hnone | ⟨n, hn, hfree', hedges⟩
    · have hnil : n'.edgeList = [] := by simp [Node.edgeList, hnone]
      exact ⟨0, hnil ▸ triedInTurn_of_untried (by simp)⟩
    · obtain ⟨k, hk⟩ := h.turns id n hn hfree'
      refine ⟨k, hedges ▸ hk.congr fun c hc => hinherits.playouts ?_⟩
      obtain ⟨e, he, rfl⟩ := List.mem_map.1 hc
      exact hshaped.closed id e (edgesOf_of_find? hn' ▸ hedges ▸ he)

/-! ## A simulation -/

/-- The edges that are added have the turns of the transitions, and each leads to a child of its own. -/
lemma forks_of_mapM {steps : List (Turn × State)} {edges : List Edge} {depth : Nat} {role : Role}
    (h : a.Orderly) (hrun : (steps.mapM (fun (turn, t) => addPerfectChild id depth role turn t) :
      Action (Arena R) (List Edge)) a = .ok edges b) :
    edges.map Edge.key = steps.map (fun step => ⟨none, step.1⟩) ∧ (edges.map Edge.child).Nodup := by
  suffices h : b.Orderly ∧ edges.map Edge.key = steps.map (fun step => ⟨none, step.1⟩) ∧
      (edges.map Edge.child).Nodup ∧ ∀ e ∈ edges, b.contains e.child = true from ⟨h.2.1, h.2.2.1⟩
  refine Action.mapM_eq_ok (I := fun before edges b => b.Orderly ∧
    edges.map Edge.key = before.map (fun step => ⟨none, step.1⟩) ∧ (edges.map Edge.child).Nodup ∧
      ∀ e ∈ edges, b.contains e.child = true) ?_ ⟨h, rfl, List.nodup_nil, by simp⟩ hrun
  rintro before ⟨turn, t⟩ after edges b e c - ⟨horderly, hkeys, hchildren, hlive⟩ hround
  obtain ⟨child, b₁, hadd, h₁⟩ := Action.bind_eq_ok.1 hround
  rw [Action.pure_run, EStateM.Result.ok.injEq] at h₁
  obtain ⟨rfl, rfl⟩ := h₁
  obtain ⟨m, -, hadded⟩ := horderly.add_eq_ok hadd
  have hnew : ∀ e ∈ edges, e.child ≠ child := by
    rintro e he rfl
    obtain ⟨n, hn⟩ := contains_iff.1 (hlive e he)
    rw [hadded.none] at hn
    cases hn
  refine ⟨hadded.orderly, by simp [hkeys], ?_, fun e he => ?_⟩
  · rw [List.map_append, List.map_singleton]
    refine List.nodup_append.2 ⟨hchildren, List.nodup_singleton _, fun x hx y hy => ?_⟩
    obtain ⟨e, he, rfl⟩ := List.mem_map.1 hx
    rw [List.mem_singleton.1 hy]
    exact hnew e he
  · rcases List.mem_append.1 he with he | he
    · obtain ⟨n, hn⟩ := contains_iff.1 (hlive e he)
      exact contains_iff.2 ⟨n, hadded.other hn⟩
    · rw [List.mem_singleton.1 he]
      exact contains_iff.2 ⟨m, hadded.self⟩

/-- Of a node that is expanded no two edges have the same key. -/
lemma forks_of_expandPerfect (h : a.Shaped) (hgame : game.ListsOnce) (hn : a.find? id = some n)
    (hnone : n.edges = none) (hrun : expandPerfect game id a = .ok ⟨⟩ b) {m : Node R}
    (hm : b.find? id = some m) : m.Forks := by
  obtain ⟨n', s, hn', hknows, ⟨hsome, -⟩ | ⟨-, steps, edges, c, hsteps, hmapM, rfl⟩⟩ := expandPerfect_cases hrun
  · rw [hn, Option.some.injEq] at hn'
    rw [← hn', hnone] at hsome
    cases hsome
  · rw [hn, Option.some.injEq] at hn'
    subst hn'
    obtain ⟨hkeys, hchildren⟩ := forks_of_mapM h.orderly hmapM
    have hself := (sprouting_of_mapM h hmapM).old id n hn
    have hm' : m = { n with edges := some (edges.toArray.filter fun e => n.accepts e.turn) } := by
      rw [find?_update, if_pos rfl, find?_update, if_pos rfl, hself] at hm
      exact (Option.some.inj hm).symm
    have hsub : m.edgeList.Sublist edges := by
      rw [hm', Node.edgeList, Option.getD_some, Array.toList_filter]
      exact List.filter_sublist
    have hdistinct : (edges.map Edge.key).Nodup := by
      have hinj : Function.Injective fun turn : Turn => (⟨none, turn⟩ : Edge.Key) := fun _ _ heq => by cases heq; rfl
      have hturns := (hgame s steps hsteps).map hinj
      rw [List.map_map] at hturns
      rw [hkeys]
      exact hturns
    exact ⟨hdistinct.sublist (hsub.map _), hchildren.sublist (hsub.map _)⟩

/-- The children of a leaf that is expanded wait for their turns. -/
lemma TakesTurns.expanded (h : a.TakesTurns) (hshaped : a.Shaped) (hgame : game.ListsOnce)
    (hpristine : ∀ id n, a.find? id = some n → n.edges = none → n.valuation = none)
    (hrun : expandPerfect game leaf a = .ok ⟨⟩ b) : b.TakesTurns := by
  obtain ⟨n, hn, -, ⟨-, rfl⟩ | ⟨hnone, edges, hsprouts⟩⟩ := expandPerfect_eq_ok hshaped hrun
  · exact h
  · refine ⟨fun id m hm hfree => ?_, fun id m hm hfree => ?_⟩
    · obtain ⟨rfl, -⟩ | ⟨-, hold | hnew⟩ := hsprouts.cases hm
      · exact forks_of_expandPerfect hshaped hgame hn hnone hrun hm
      · exact h.forks id m hold hfree
      · exact Node.forks_of_none hnew.edges
    · obtain ⟨rfl, rfl⟩ | ⟨-, hold | hnew⟩ := hsprouts.cases hm
      · refine ⟨0, triedInTurn_of_untried fun c hc => ?_⟩
        obtain ⟨e, he, rfl⟩ := List.mem_map.1 hc
        rw [hsprouts.playouts, Arena.playouts, valuation?, hsprouts.children e he]
        rfl
      · obtain ⟨k, hk⟩ := h.turns id m hold hfree
        exact ⟨k, hk.congr fun c _ => hsprouts.playouts c⟩
      · have hnil : m.edgeList = [] := by simp [Node.edgeList, hnew.edges]
        exact ⟨0, hnil ▸ triedInTurn_of_untried (by simp)⟩

/-- A node on the way to a leaf leads there through the child whose turn it is. -/
def Heeds (a : Arena R) (leaf : NodeId) : Prop := ∀ id n e, a.find? id = some n → n.move = none →
  e ∈ n.edgeList → a.Leads e.child leaf → IsTurn a.playouts (n.edgeList.map Edge.child) e.child

lemma exists_of_mem_edgesOf {e : Edge} (he : e ∈ a.edgesOf id) : ∃ n, a.find? id = some n ∧ e ∈ n.edgeList := by
  cases hn : a.find? id with
  | none => simp [edgesOf, hn] at he
  | some n => exact ⟨n, rfl, edgesOf_of_find? hn ▸ he⟩

/-- What leads to the leaf once it is expanded has led there before. -/
lemma Sprouts.leads {edges : Array Edge} {x : NodeId} (h : Sprouts a leaf n edges b) (hleads : b.Leads x leaf) :
    a.Leads x leaf := by
  have hstep : ∀ k, b.Leads x k → a.Leads x k ∨ b.Leads leaf k ∧ k ≠ leaf := by
    intro k hk
    induction hk with
    | refl => exact .inl .refl
    | @step y e _ he ih =>
      rcases ih with hold | ⟨hbelow, -⟩
      · by_cases hy : y = leaf
        · subst hy
          exact .inr ⟨.step .refl he, fun heq => h.shaped.child_not_leads he (heq ▸ .refl)⟩
        · obtain ⟨m, hm, hin⟩ := exists_of_mem_edgesOf he
          obtain ⟨rfl, -⟩ | ⟨-, hm' | hnew⟩ := h.cases hm
          · exact absurd rfl hy
          · exact .inl (hold.step (edgesOf_of_find? hm' ▸ hin))
          · simp [Node.edgeList, hnew.edges] at hin
      · exact .inr ⟨hbelow.step he, fun heq => h.shaped.child_not_leads he (heq ▸ hbelow)⟩
  exact (hstep leaf hleads).resolve_right fun hno => hno.2 rfl

lemma Heeds.expanded (h : a.Heeds leaf) (hshaped : a.Shaped) (hrun : expandPerfect game leaf a = .ok ⟨⟩ b) :
    b.Heeds leaf := by
  obtain ⟨n, hn, -, ⟨-, rfl⟩ | ⟨hnone, edges, hsprouts⟩⟩ := expandPerfect_eq_ok hshaped hrun
  · exact h
  · intro id m e hm hfree he hleads
    have hplayouts : b.playouts = a.playouts := funext hsprouts.playouts
    obtain ⟨rfl, -⟩ | ⟨-, hold | hnew⟩ := hsprouts.cases hm
    · exact absurd hleads (hsprouts.shaped.child_not_leads (edgesOf_of_find? hm ▸ he))
    · rw [hplayouts]
      exact h id m e hold hfree he (hsprouts.leads hleads)
    · simp [Node.edgeList, hnew.edges] at he

/-- A simulation that heeds the turns takes the next one at each node on its way. -/
theorem TakesTurns.credited [Scalar R] {utility : R} (h : a.TakesTurns) (hshaped : a.Shaped) (hheeds : a.Heeds leaf)
    (hcredits : Credits (a.Leads · leaf) utility a a') : a'.TakesTurns := by
  classical
  have hsame : ∀ id n', a'.find? id = some n' → ∃ n, a.find? id = some n ∧ n'.edgeList = n.edgeList ∧
      n'.move = n.move := by
    intro id n' hn'
    obtain ⟨n, hn, heq⟩ := hcredits.exists_find? hn'
    exact ⟨n, hn, (by rw [heq] : n'.unvalued.edgeList = n.unvalued.edgeList),
      (by rw [heq] : n'.unvalued.move = n.unvalued.move)⟩
  refine ⟨fun id n' hn' hfree => ?_, fun id n' hn' hfree => ?_⟩
  · obtain ⟨n, hn, hedges, hmove⟩ := hsame id n' hn'
    have hforks := h.forks id n hn (hmove ▸ hfree)
    exact ⟨hedges ▸ hforks.keys, hedges ▸ hforks.children⟩
  · obtain ⟨n, hn, hedges, hmove⟩ := hsame id n' hn'
    have hforks := h.forks id n hn (hmove ▸ hfree)
    obtain ⟨k, hk⟩ := h.turns id n hn (hmove ▸ hfree)
    rw [hedges]
    by_cases hway : ∃ e ∈ n.edgeList, a.Leads e.child leaf
    · obtain ⟨e, he, hleads⟩ := hway
      refine hk.next hforks.children (hheeds id n e hn (hmove ▸ hfree) he hleads) fun c hc => ?_
      obtain ⟨e', he', rfl⟩ := List.mem_map.1 hc
      rw [hcredits.playouts]
      congr 1
      refine if_congr ⟨fun hleads' => ?_, fun heq => heq ▸ hleads⟩ rfl rfl
      exact hshaped.child_unique (edgesOf_of_find? hn ▸ he') (edgesOf_of_find? hn ▸ he) hleads' hleads
    · refine ⟨k, hk.congr fun c hc => ?_⟩
      obtain ⟨e, he, rfl⟩ := List.mem_map.1 hc
      rw [hcredits.playouts, if_neg fun hleads => hway ⟨e, he, hleads⟩, Nat.add_zero]

end Arena

end GameSearch
