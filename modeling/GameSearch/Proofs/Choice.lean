import Mathlib.Algebra.BigOperators.Group.List.Basic
import Mathlib.Data.List.MinMax
import Mathlib.Data.List.FinRange
import GameSearch.Proofs.Exact
import GameSearch.Proofs.Options
import GameSearch.Proofs.Tree.Credit

/-!
# Choosing a move

The move that is really made is chosen from a role's own moves: what is known of a move are the playouts of
all the distinct children that it leads to, in whatever worlds and together with whatever moves of others.
In exact arithmetic the mean of an option is the average over these playouts, and both ways of choosing a move
are maxima over the own moves.
-/

namespace GameSearch

/-! ## Means -/

namespace Candidate

variable {c : Candidate ℚ} {child : NodeId} {v : Option (Valuation ℚ)}

/-- The sum of the utilities that a child contributes. -/
def gained (v : Option (Valuation ℚ)) : ℚ := (v.map fun v : Valuation ℚ => v.mean * (v.playouts : ℚ)).getD 0

/-- One more child adds its utilities to those of the others. -/
lemma total_addChild (h : child ∉ c.children) :
    (c.addChild child v).mean * (c.addChild child v).playouts = c.mean * c.playouts + gained v := by
  rw [addChild, if_neg (by simpa using h)]
  cases v with
  | none => simp [gained]
  | some v =>
    simp only
    split
    · next hzero => simp [gained, hzero]
    · next hsome =>
      have hpos : ((c.playouts + v.playouts : ℕ) : ℚ) ≠ 0 := by exact_mod_cast (by omega)
      simp only [Scalar.ofNat_rat]
      rw [div_mul_cancel₀ _ hpos]
      rfl

lemma mean_addChild_eq_zero (hc : c.playouts = 0 → c.mean = 0) (h : child ∉ c.children)
    (hzero : (c.addChild child v).playouts = 0) : (c.addChild child v).mean = 0 := by
  rw [playouts_addChild h] at hzero
  have hv : contributed v = 0 := by omega
  rw [addChild, if_neg (by simpa using h)]
  cases v with
  | none => exact hc (by omega)
  | some v =>
    have hnone : v.playouts = 0 := hv
    simp only
    rw [if_pos hnone]
    exact hc (by omega)

lemma total_ofChildren (valuation : NodeId → Option (Valuation ℚ)) (key : Edge.Key) (children : List NodeId) :
    (ofChildren valuation key children).mean * (ofChildren valuation key children).playouts =
        (children.eraseDups.map fun child => gained (valuation child)).sum ∧
      ((ofChildren valuation key children).playouts = 0 → (ofChildren valuation key children).mean = 0) := by
  induction children using List.reverseRecOn with
  | nil => simp [ofChildren, ofKey, Scalar.zero, Scalar.ofInt]
  | append_singleton children child ih =>
    obtain ⟨htotal, hzero⟩ := ih
    by_cases hin : child ∈ children
    · rw [ofChildren_concat_of_mem hin, eraseDups_concat_of_mem hin]
      exact ⟨htotal, hzero⟩
    · have hnew : child ∉ (ofChildren valuation key children).children := mt mem_children_ofChildren.1 hin
      rw [ofChildren_concat]
      refine ⟨?_, mean_addChild_eq_zero hzero hnew⟩
      rw [total_addChild hnew, htotal, eraseDups_concat_of_not_mem hin, List.map_append, List.sum_append,
        List.map_singleton, List.sum_singleton]

/-- In exact arithmetic an option has the average utility of its distinct children. -/
theorem mean_ofChildren (valuation : NodeId → Option (Valuation ℚ)) (key : Edge.Key) (children : List NodeId) :
    (ofChildren valuation key children).mean =
      (children.eraseDups.map fun child => gained (valuation child)).sum /
        ((children.eraseDups.map fun child => contributed (valuation child)).sum : ℕ) := by
  obtain ⟨htotal, hzero⟩ := total_ofChildren valuation key children
  rw [← playouts_ofChildren, ← htotal]
  by_cases h : (ofChildren valuation key children).playouts = 0
  · rw [hzero h, zero_mul, zero_div]
  · rw [mul_div_cancel_right₀ _ (by exact_mod_cast h)]

end Candidate

/-! ## Own moves -/

namespace Edge

/-- The move of a role that an edge is chosen by, if there is one. -/
def own (e : Edge) (role : Role) : Option Move := e.key.turn.find? role

/-- The key of a role's own move, or of none. -/
def ownKey (role : Role) : Option Move → Key
  | some move => ⟨none, .single role move⟩
  | none => ⟨none, ∅⟩

lemma ownKey_own (e : Edge) (role : Role) : ownKey role (e.own role) = ⟨none, e.key.turn.restrict role⟩ := by
  rw [own, Turn.restrict]
  cases e.key.turn.find? role <;> rfl

lemma find?_ownKey (role : Role) (move : Option Move) : (ownKey role move).turn.find? role = move := by
  cases move with
  | none => rfl
  | some move => rw [ownKey, Turn.find?_single, if_pos rfl]

lemma ownKey_injective (role : Role) : Function.Injective (ownKey role) :=
  fun move move' h => by rw [← find?_ownKey role move, h, find?_ownKey]

/-- The own moves of a role on some edges, in the order in which they first appear. -/
def ownMoves (edges : List Edge) (role : Role) : List (Option Move) := (edges.map (·.own role)).eraseDups

/-- The distinct children that edges with a role's move lead to. -/
def childrenAfter (edges : List Edge) (role : Role) (move : Option Move) : List NodeId :=
  ((edges.filter (·.own role = move)).map child).eraseDups

end Edge

namespace Arena

open Edge

variable {ε : Type} {a : Arena ℚ} {id : NodeId} {edges : Array Edge} {role : Role}

/-- The playouts of the distinct children that a role's move leads to. -/
def playoutsAfter (a : Arena ℚ) (edges : List Edge) (role : Role) (move : Option Move) : Nat :=
  ((childrenAfter edges role move).map a.playouts).sum

/-- The average of the utilities that these playouts brought. -/
def meanAfter (a : Arena ℚ) (edges : List Edge) (role : Role) (move : Option Move) : ℚ :=
  ((childrenAfter edges role move).map fun child => Candidate.gained (a.valuation? child)).sum /
    a.playoutsAfter edges role move

/-- What a role's move offers. -/
def offerOf (a : Arena ℚ) (edges : List Edge) (role : Role) (move : Option Move) : Candidate ℚ where
  key := ownKey role move
  children := (childrenAfter edges role move).toArray
  playouts := a.playoutsAfter edges role move
  mean := a.meanAfter edges role move

lemma ofChildren_eq_offerOf (a : Arena ℚ) (edges : List Edge) (role : Role) (move : Option Move) :
    Candidate.ofChildren a.valuation? (ownKey role move) ((edges.filter (·.own role = move)).map child) =
      a.offerOf edges role move := by
  have hkey := Candidate.key_ofChildren a.valuation? (ownKey role move) ((edges.filter (·.own role = move)).map child)
  have hchildren := Candidate.children_ofChildren a.valuation? (ownKey role move)
    ((edges.filter (·.own role = move)).map child)
  have hplayouts := Candidate.playouts_ofChildren a.valuation? (ownKey role move)
    ((edges.filter (·.own role = move)).map child)
  have hmean := Candidate.mean_ofChildren a.valuation? (ownKey role move)
    ((edges.filter (·.own role = move)).map child)
  generalize Candidate.ofChildren a.valuation? (ownKey role move) _ = c at hkey hchildren hplayouts hmean ⊢
  cases c
  cases hkey
  cases hchildren
  cases hplayouts
  cases hmean
  rfl

/-- The options come from the own moves and the children they lead to. -/
lemma moveOptions?_gather (hedges : a.edges? id = .ok edges)
    (hchildren : ∀ e ∈ edges.toList, ∃ n, a.find? e.child = some n) (role : Role) :
    a.moveOptions? id role = .ok (Candidate.gather a.valuation?
      ((edges.toList.map fun e => (e.own role, e.child)).map fun x => (ownKey role x.1, x.2))) := by
  rw [moveOptions?, group?_eq hedges hchildren, filter_elsewhere_none, List.map_map]
  congr 2
  refine List.map_congr_left fun e _ => ?_
  rw [Function.comp_apply, ownKey_own]

/-- The options are the own moves. -/
theorem moveOptions?_eq (hedges : a.edges? id = .ok edges)
    (hchildren : ∀ e ∈ edges.toList, ∃ n, a.find? e.child = some n) (role : Role) :
    a.moveOptions? id role =
      .ok ((ownMoves edges.toList role).map (a.offerOf edges.toList role)).toArray := by
  rw [moveOptions?_gather hedges hchildren, Candidate.gather_eq]
  have hkeys : ((edges.toList.map fun e => (e.own role, e.child)).map fun x => (ownKey role x.1, x.2)).map Prod.fst =
      (edges.toList.map (·.own role)).map (ownKey role) := by
    simp only [List.map_map]
    rfl
  rw [hkeys, eraseDups_map_of_injective (ownKey_injective role), List.map_map]
  congr 2
  refine List.map_congr_left fun move _ => ?_
  rw [Function.comp_apply, ← ofChildren_eq_offerOf]
  congr 1
  simp only [Candidate.childrenOf, List.map_map, List.filter_map]
  congr 1
  refine List.filter_congr fun e _ => ?_
  simp [(ownKey_injective role).eq_iff]

/-! ## The best of them -/

section Best

variable {α β : Type}

lemma foldl_argAux_some (better : α → α → Prop) [DecidableRel better] (l : List α) (x : α) :
    l.foldl (List.argAux better) (some x) = some (l.foldl (fun best y => if better y best then y else best) x) := by
  induction l generalizing x with
  | nil => rfl
  | cons y l ih =>
    rw [List.foldl_cons, List.foldl_cons]
    change l.foldl (List.argAux better) (if better y x then some y else some x) = _
    split
    · exact ih y
    · exact ih x

lemma foldl_argAux_map (better : β → β → Prop) [DecidableRel better] (f : α → β) (l : List α) :
    (l.map f).foldl (List.argAux better) none =
      (l.foldl (List.argAux fun x y => better (f x) (f y)) none).map f := by
  induction l using List.reverseRecOn with
  | nil => rfl
  | append_singleton l x ih =>
    rw [List.map_append, List.foldl_append, List.foldl_append, ih]
    cases l.foldl (List.argAux fun x y => better (f x) (f y)) none with
    | none => rfl
    | some y =>
      simp only [List.map_singleton, List.foldl_cons, List.foldl_nil, Option.map_some, List.argAux]
      split <;> rfl

/-- Beating the best so far at each index is how the first of the best is found in a list. -/
lemma bestIndex_eq {n : Nat} (h : 0 < n) (beats : Fin n → Fin n → Prop) [DecidableRel beats] :
    some (Selector.bestIndex h fun i j => beats i j) = (List.finRange n).foldl (List.argAux beats) none := by
  cases n with
  | zero => exact absurd h (lt_irrefl 0)
  | succ n =>
    rw [Selector.bestIndex, List.finRange_succ, List.foldl_cons, List.foldl_cons]
    have hfirst : (if beats 0 ⟨0, h⟩ then (0 : Fin (n + 1)) else ⟨0, h⟩) = 0 := by split <;> rfl
    rw [List.argAux, foldl_argAux_some]
    simp only [decide_eq_true_eq, hfirst]

end Best

/-- The option on top is that of the own move on top. -/
lemma some_getElem_bestIndex {options : Array (Candidate ℚ)} {moves : List (Option Move)}
    {f : Option Move → Candidate ℚ} (hoptions : options = (moves.map f).toArray) (h : 0 < options.size)
    (better : Candidate ℚ → Candidate ℚ → Prop) [DecidableRel better] :
    some options[Selector.bestIndex h fun i j => better options[i] options[j]] =
      (moves.foldl (List.argAux fun x y => better (f x) (f y)) none).map f := by
  have hlist : (List.finRange options.size).map (fun i => options[i]) = moves.map f := by
    subst hoptions
    apply List.ext_getElem
    · simp
    · intro i _ _
      simp
  rw [← foldl_argAux_map, ← hlist, foldl_argAux_map, ← bestIndex_eq h]
  rfl

/-- What a chooser returns that looks for the option on top. -/
lemma chooseMove_eq_ok {chooser : Selector ℚ ε} {better : Candidate ℚ → Candidate ℚ → Prop} [DecidableRel better]
    (hpick : ∀ s owner (options : Array (Candidate ℚ)) h, chooser.pick s owner options h =
      pure (Selector.bestIndex h fun i j => better options[i] options[j]))
    (hedges : a.edges? id = .ok edges) (hchildren : ∀ e ∈ edges.toList, ∃ n, a.find? e.child = some n)
    {move : Move} {host host' : ε} :
    a.chooseMove chooser id role host = .ok move host' ↔ host' = host ∧
      (ownMoves edges.toList role).foldl (List.argAux fun x y =>
        better (a.offerOf edges.toList role x) (a.offerOf edges.toList role y)) none = some (some move) := by
  obtain ⟨n, hn⟩ := exists_node_of_edges? hedges
  set moves := ownMoves edges.toList role with hmoves
  set f := a.offerOf edges.toList role with hf
  rw [chooseMove, Action.bind_of_ok (Action.lift_of_ok (moveOptions?_eq hedges hchildren role) host),
    Action.bind_of_ok (Action.lift_of_ok hn host), ← hmoves, ← hf, pickOf]
  by_cases h : 0 < (moves.map f).toArray.size
  · have htop := some_getElem_bestIndex rfl h better
    rw [dif_pos h, hpick]
    obtain ⟨top, hfold⟩ : ∃ top, moves.foldl (List.argAux fun x y => better (f x) (f y)) none = some top := by
      refine Option.ne_none_iff_exists'.1 fun hnone => ?_
      rw [hnone] at htop
      cases htop
    rw [hfold, Option.map_some, Option.some.injEq] at htop
    change (liftM ((moves.map f).toArray[Selector.bestIndex h fun i j => better _ _].key.turn.at? role) :
      Action ε Move) host = _ ↔ _
    rw [htop, hfold, Action.lift_eq_ok, Turn.at?, hf, offerOf, find?_ownKey]
    cases top <;> simp [eq_comm, and_comm]
  · have hnil : moves = [] := by simpa using h
    rw [dif_neg h, hnil]
    constructor
    · intro hthrow
      cases hthrow
    · rintro ⟨-, hnone⟩
      cases hnone

/-- The best one among those that have been visited, the first one if none has. -/
lemma argmax_or_head? {α β : Type} [Preorder β] [DecidableLT β] (visited : α → Bool) (score : α → β) (l : List α) :
    l.foldl (List.argAux fun x y => visited x && (!visited y || decide (score y < score x))) none =
      ((l.filter visited).argmax score).or l.head? := by
  induction l using List.reverseRecOn with
  | nil => rfl
  | append_singleton l x ih =>
    have hstep (y : α) : List.argAux (fun x y => (visited x && (!visited y || decide (score y < score x))) = true)
        (some y) x = if (visited x && (!visited y || decide (score y < score x))) = true then some x else some y := rfl
    rw [List.foldl_append, ih, List.filter_append, List.foldl_cons, List.foldl_nil]
    cases hbest : (l.filter visited).argmax score with
    | none =>
      have hnone := List.argmax_eq_none.1 hbest
      cases hl : l.head? with
      | none =>
        rw [List.head?_eq_none_iff.1 hl]
        cases hx : visited x <;> simp [List.argAux, hx]
      | some y =>
        have hy : visited y = false := by
          simpa using List.filter_eq_nil_iff.1 hnone y (List.mem_of_head? hl)
        rw [hnone, List.nil_append, Option.none_or, hstep, hy]
        cases hx : visited x <;> simp [hx, hl]
    | some y =>
      have hy : visited y = true := (List.mem_filter.1 (List.argmax_mem hbest)).2
      rw [Option.some_or, hstep, hy]
      cases hx : visited x with
      | false => simp [hx, hbest]
      | true =>
        rw [List.filter_cons_of_pos hx, List.filter_nil, List.argmax_concat, hbest]
        simp only [Bool.true_and, Bool.not_true, Bool.false_or, decide_eq_true_eq]
        split <;> rfl

/-! ## The two choosers -/

/-- An option has more playouts than another one. -/
def Outplays (x y : Candidate ℚ) : Prop := y.playouts < x.playouts

instance : DecidableRel Outplays := fun _ _ => inferInstanceAs (Decidable (_ < _))

/-- An option has been visited, and the other one has not or has a lower mean. -/
def Surpasses (x y : Candidate ℚ) : Prop := (x.isVisited && (!y.isVisited || decide (y.mean < x.mean))) = true

instance : DecidableRel Surpasses := fun _ _ => inferInstanceAs (Decidable (_ = true))

lemma pick_mostVisited (s : State) (owner : Role) (options : Array (Candidate ℚ)) (h : 0 < options.size) :
    (Selector.mostVisited : Selector ℚ ε).pick s owner options h =
      pure (Selector.bestIndex h fun i j => Outplays options[i] options[j]) := rfl

lemma pick_best (s : State) (owner : Role) (options : Array (Candidate ℚ)) (h : 0 < options.size) :
    (Selector.best : Selector ℚ ε).pick s owner options h =
      pure (Selector.bestIndex h fun i j => Surpasses options[i] options[j]) := by
  have hbool (x y : Candidate ℚ) : decide (Surpasses x y) =
      (x.isVisited && (!y.isVisited || decide (y.mean < x.mean))) := by
    rw [Bool.eq_iff_iff, decide_eq_true_eq, Surpasses]
  simp only [hbool]
  rfl

/-- The most visited of the own moves. -/
lemma chooseMove_mostVisited_eq_ok (hedges : a.edges? id = .ok edges)
    (hchildren : ∀ e ∈ edges.toList, ∃ n, a.find? e.child = some n) {move : Move} {host host' : ε} :
    a.chooseMove .mostVisited id role host = .ok move host' ↔ host' = host ∧
      (ownMoves edges.toList role).argmax (a.playoutsAfter edges.toList role) = some (some move) :=
  chooseMove_eq_ok pick_mostVisited hedges hchildren

/-- The best of the own moves that have been visited. -/
lemma chooseMove_best_eq_ok (hedges : a.edges? id = .ok edges)
    (hchildren : ∀ e ∈ edges.toList, ∃ n, a.find? e.child = some n) {move : Move} {host host' : ε} :
    a.chooseMove .best id role host = .ok move host' ↔ host' = host ∧
      (((ownMoves edges.toList role).filter (0 < a.playoutsAfter edges.toList role ·)).argmax
        (a.meanAfter edges.toList role)).or (ownMoves edges.toList role).head? = some (some move) := by
  rw [chooseMove_eq_ok pick_best hedges hchildren, ← argmax_or_head?]
  rfl

lemma exists_own_of_mem (h : ∀ e ∈ edges.toList, ∃ move, e.own role = some move) {m : Option Move}
    (hm : m ∈ ownMoves edges.toList role) : ∃ move, m = some move := by
  obtain ⟨e, he, rfl⟩ := List.mem_map.1 (List.mem_eraseDups.1 hm)
  exact h e he

/-- Where a role always makes a move, both choosers find one. -/
lemma exists_chooseMove (hedges : a.edges? id = .ok edges)
    (hchildren : ∀ e ∈ edges.toList, ∃ n, a.find? e.child = some n) (hsome : edges.toList ≠ [])
    (hown : ∀ e ∈ edges.toList, ∃ move, e.own role = some move) (host : ε) :
    (∃ move, a.chooseMove .mostVisited id role host = .ok move host) ∧
      ∃ move, a.chooseMove .best id role host = .ok move host := by
  set moves := ownMoves edges.toList role with hmoves
  obtain ⟨first, rest, hcons⟩ : ∃ first rest, moves = first :: rest := by
    obtain ⟨e, rest, hrest⟩ := List.exists_cons_of_ne_nil hsome
    refine List.exists_cons_of_ne_nil fun hnil => ?_
    have hin : e.own role ∈ moves := by
      rw [hmoves, ownMoves, List.mem_eraseDups, hrest]
      exact List.mem_cons_self
    rw [hnil] at hin
    cases hin
  constructor
  · obtain ⟨top, htop⟩ : ∃ top, moves.argmax (a.playoutsAfter edges.toList role) = some top := by
      refine Option.ne_none_iff_exists'.1 fun hnone => ?_
      rw [List.argmax_eq_none.1 hnone] at hcons
      cases hcons
    obtain ⟨move, rfl⟩ := exists_own_of_mem hown (List.argmax_mem htop)
    exact ⟨move, (chooseMove_mostVisited_eq_ok hedges hchildren).2 ⟨rfl, htop⟩⟩
  · cases htop : (moves.filter (0 < a.playoutsAfter edges.toList role ·)).argmax (a.meanAfter edges.toList role) with
    | none =>
      obtain ⟨move, rfl⟩ := exists_own_of_mem hown (m := first) (by rw [← hmoves, hcons]; exact List.mem_cons_self)
      refine ⟨move, (chooseMove_best_eq_ok hedges hchildren).2 ⟨rfl, ?_⟩⟩
      rw [← hmoves, htop, hcons]
      rfl
    | some top =>
      obtain ⟨move, rfl⟩ := exists_own_of_mem hown (List.mem_filter.1 (List.argmax_mem htop)).1
      refine ⟨move, (chooseMove_best_eq_ok hedges hchildren).2 ⟨rfl, ?_⟩⟩
      rw [← hmoves, htop]
      rfl

/-! ## Repetitions -/

section Repeated

variable {a' : Arena ℚ} {edges' : Array Edge}

/-- The options depend on the distinct pairs of an own move and a child. -/
lemma moveOptions?_repeated (hedges : a.edges? id = .ok edges)
    (hchildren : ∀ e ∈ edges.toList, ∃ n, a.find? e.child = some n) (hedges' : a'.edges? id = .ok edges')
    (hchildren' : ∀ e ∈ edges'.toList, ∃ n, a'.find? e.child = some n)
    (hvaluation : ∀ e ∈ edges.toList, a'.valuation? e.child = a.valuation? e.child)
    (hsame : (edges'.toList.map fun e => (e.own role, e.child)).eraseDups =
      (edges.toList.map fun e => (e.own role, e.child)).eraseDups) :
    a'.moveOptions? id role = a.moveOptions? id role := by
  rw [moveOptions?_gather hedges' hchildren', moveOptions?_gather hedges hchildren]
  congr 1
  rw [← Candidate.gather_eraseDups, ← eraseDups_map_eraseDups, hsame, eraseDups_map_eraseDups,
    Candidate.gather_eraseDups]
  refine Candidate.gather_congr fun x hx => ?_
  obtain ⟨y, hy, rfl⟩ := List.mem_map.1 hx
  obtain ⟨e, he, rfl⟩ := List.mem_map.1 hy
  exact hvaluation e he

/-- A chooser that looks at nothing but the options chooses alike from the same options. -/
lemma chooseMove_congr {chooser : Selector ℚ ε} {better : Candidate ℚ → Candidate ℚ → Prop} [DecidableRel better]
    (hpick : ∀ s owner (options : Array (Candidate ℚ)) h, chooser.pick s owner options h =
      pure (Selector.bestIndex h fun i j => better options[i] options[j]))
    (hnode : ∃ n, a.node? id = .ok n) (hnode' : ∃ n, a'.node? id = .ok n)
    (hoptions : a'.moveOptions? id role = a.moveOptions? id role) (host : ε) :
    a'.chooseMove chooser id role host = a.chooseMove chooser id role host := by
  obtain ⟨n, hn⟩ := hnode
  obtain ⟨n', hn'⟩ := hnode'
  unfold chooseMove
  rw [hoptions]
  cases a.moveOptions? id role with
  | error e => rfl
  | ok options =>
    rw [Action.bind_of_ok (Action.lift_ok options host), Action.bind_of_ok (Action.lift_ok options host),
      Action.bind_of_ok (Action.lift_of_ok hn host), Action.bind_of_ok (Action.lift_of_ok hn' host), pickOf, pickOf]
    simp only [hpick]

end Repeated

/-! ## The theorem -/

/-- A move is chosen on all that is known of each own move. -/
theorem chooses_by_own_move (hedges : a.edges? id = .ok edges)
    (hchildren : ∀ e ∈ edges.toList, ∃ n, a.find? e.child = some n) (role : Role) :
    a.moveOptions? id role = .ok ((ownMoves edges.toList role).map (a.offerOf edges.toList role)).toArray ∧
    (∀ move (host host' : ε), a.chooseMove .mostVisited id role host = .ok move host' ↔ host' = host ∧
      (ownMoves edges.toList role).argmax (a.playoutsAfter edges.toList role) = some (some move)) ∧
    (∀ move (host host' : ε), a.chooseMove .best id role host = .ok move host' ↔ host' = host ∧
      (((ownMoves edges.toList role).filter (0 < a.playoutsAfter edges.toList role ·)).argmax
        (a.meanAfter edges.toList role)).or (ownMoves edges.toList role).head? = some (some move)) ∧
    (edges.toList ≠ [] → (∀ e ∈ edges.toList, ∃ move, e.own role = some move) → ∀ host : ε,
      (∃ move, a.chooseMove .mostVisited id role host = .ok move host) ∧
        ∃ move, a.chooseMove .best id role host = .ok move host) ∧
    ∀ (a' : Arena ℚ) (edges' : Array Edge), a'.edges? id = .ok edges' →
      (∀ e ∈ edges'.toList, ∃ n, a'.find? e.child = some n) →
      (∀ e ∈ edges.toList, a'.valuation? e.child = a.valuation? e.child) →
      (edges'.toList.map fun e => (e.own role, e.child)).eraseDups =
        (edges.toList.map fun e => (e.own role, e.child)).eraseDups →
      a'.moveOptions? id role = a.moveOptions? id role ∧ ∀ host : ε,
        a'.chooseMove .mostVisited id role host = a.chooseMove .mostVisited id role host ∧
          a'.chooseMove .best id role host = a.chooseMove .best id role host := by
  refine ⟨moveOptions?_eq hedges hchildren role, fun move host host' => chooseMove_mostVisited_eq_ok hedges hchildren,
    fun move host host' => chooseMove_best_eq_ok hedges hchildren, exists_chooseMove hedges hchildren, ?_⟩
  intro a' edges' hedges' hchildren' hvaluation hsame
  have hoptions := moveOptions?_repeated hedges hchildren hedges' hchildren' hvaluation hsame
  have hnode := exists_node_of_edges? hedges
  have hnode' := exists_node_of_edges? hedges'
  exact ⟨hoptions, fun host => ⟨chooseMove_congr pick_mostVisited hnode hnode' hoptions host,
    chooseMove_congr pick_best hnode hnode' hoptions host⟩⟩

end Arena

/-! ## A crossing -/

namespace Crossing

def walker : Role := .symbol "walker"

def wind : Role := .symbol "wind"

def left : Move := .symbol "step-left"

def right : Move := .symbol "step-right"

/-- What the walker does and what the wind does, and where that leads. -/
def edge (move gust : Move) (child : NodeId) : Edge :=
  { key := ⟨none, .ofList [⟨walker, move⟩, ⟨wind, gust⟩]⟩
    turn := .ofList [⟨walker, move⟩, ⟨wind, gust⟩]
    next := ∅
    child := child }

/-- After two of the gusts a step to the left leads to the same place. -/
def edges : Array Edge :=
  #[edge left (.symbol "north-wind") 1, edge left (.symbol "south-wind") 2, edge right (.symbol "north-wind") 3,
    edge left (.symbol "west-wind") 1]

def node (edges : Option (Array Edge)) (valuation : Option (Valuation ℚ)) : Option (Node ℚ) :=
  some { parent := none, depth := 0, role := walker, knowledge := .perfect ∅ none, edges := edges, valuation := valuation }

/-- The walker has gone left four times, with a mean of 5/8, and right twice, with a mean of 3/4. -/
def arena (edges : Array Edge) : Arena ℚ where
  slots := #[node (some edges) none, node none (some ⟨1 / 2, 3⟩), node none (some ⟨1, 1⟩), node none (some ⟨3 / 4, 2⟩)]
  size := 4

lemma edges?_arena (edges : Array Edge) : (arena edges).edges? 0 = .ok edges := by rfl

lemma exists_child : ∀ e ∈ edges.toList, ∃ n, (arena edges).find? e.child = some n := by
  simp [edges, edge, arena, Arena.find?, node]

lemma exists_child_pop : ∀ e ∈ edges.pop.toList, ∃ n, (arena edges.pop).find? e.child = some n := by
  simp [edges, edge, arena, Arena.find?, node]

lemma valuation?_pop : ∀ e ∈ edges.toList,
    (arena edges.pop).valuation? e.child = (arena edges).valuation? e.child := by
  simp [edges, edge, arena, Arena.valuation?, Arena.find?, node]

end Crossing

/-- The theorem applies to a crossing where the two choosers disagree, and where one edge makes no difference. -/
theorem Arena.chooses_by_own_move_crossing :
    (Crossing.arena Crossing.edges).chooseMove .mostVisited 0 Crossing.walker () = .ok Crossing.left () ∧
      (Crossing.arena Crossing.edges).chooseMove .best 0 Crossing.walker () = .ok Crossing.right () ∧
      (Crossing.arena Crossing.edges.pop).moveOptions? 0 Crossing.walker =
        (Crossing.arena Crossing.edges).moveOptions? 0 Crossing.walker := by
  obtain ⟨-, hmost, hbest, -, hrepeated⟩ :=
    chooses_by_own_move (Crossing.edges?_arena Crossing.edges) Crossing.exists_child Crossing.walker
  refine ⟨(hmost _ _ ()).2 ⟨rfl, by decide⟩, (hbest _ _ ()).2 ⟨rfl, by decide +kernel⟩, ?_⟩
  exact (hrepeated _ _ (Crossing.edges?_arena _) Crossing.exists_child_pop Crossing.valuation?_pop (by decide)).1

end GameSearch
