import Mathlib.Algebra.BigOperators.Group.List.Basic
import GameSearch.Proofs.Agent.Deliberation
import GameSearch.Proofs.Gathering
import GameSearch.Proofs.Tree.Rooting

/-!
# Statistics as an account of the simulations

A ledger lists for each node the utilities of the simulations that ended at it or below it.  What an agent
does between two simulations may remove nodes and add others, also under the numbers of removed ones;
`TreeAgent.Calls` keeps the ledger meanwhile.  `TreeAgent.Audited` is what a method of searching has to do
for the valuations of its nodes to agree with the ledger, whatever calls it gets.
-/

namespace GameSearch

namespace Valuation

section Scalar

variable {R : Type} [Scalar R] {utilities : List R} {utility : R}

lemma ofAll_append (utilities more : List R) :
    ofAll (utilities ++ more) = more.foldl take (ofAll utilities) := List.foldl_append

/-- Each utility that is taken in is one more playout. -/
lemma playouts_foldl_take (v : Option (Valuation R)) (utilities : List R) :
    ((utilities.foldl take v).map playouts).getD 0 = (v.map playouts).getD 0 + utilities.length := by
  induction utilities generalizing v with
  | nil => rfl
  | cons utility utilities ih =>
    rw [List.foldl_cons, ih, List.length_cons, playouts_take]
    omega

/-- There are as many playouts as utilities. -/
lemma playouts_ofAll (utilities : List R) :
    ((ofAll utilities).map playouts).getD 0 = utilities.length :=
  (playouts_foldl_take none utilities).trans (Nat.zero_add _)

end Scalar

/-- Each utility that is taken in adds to the sum. -/
lemma total_foldl_take (v : Option (Valuation ℚ)) (utilities : List ℚ) :
    ((utilities.foldl take v).map total).getD 0 = (v.map total).getD 0 + utilities.sum := by
  induction utilities generalizing v with
  | nil => simp
  | cons utility utilities ih =>
    have htake : ((take v utility).map total).getD 0 = (v.map total).getD 0 + utility := by
      cases v with
      | none => simp [take, total]
      | some v => simp [take, total_add]
    rw [List.foldl_cons, ih, htake, List.sum_cons, add_assoc]

/-- In exact arithmetic the mean is the average of the utilities. -/
lemma mean_ofAll {utilities : List ℚ} {v : Valuation ℚ} (h : ofAll utilities = some v) :
    v.mean = utilities.sum / utilities.length := by
  have hplayouts : v.playouts = utilities.length := by
    have hall := playouts_ofAll utilities
    rwa [h] at hall
  have htotal : v.total = utilities.sum := by
    have hall := total_foldl_take none utilities
    rw [← ofAll, h] at hall
    simpa using hall
  have hsome : 0 < v.playouts := by
    rw [hplayouts, List.length_pos_iff]
    rintro rfl
    cases h
  rw [mean_eq_total_div hsome, htotal, hplayouts]

end Valuation

/-- What the simulations brought, by the numbers of the nodes that they ended at or below. -/
abbrev Ledger (R : Type) := NodeId → List R

namespace Arena

variable {R : Type} {a a' : Arena R} {id : NodeId} {finals : List (NodeId × R)}

/-- What a simulation brings a node: the utility for its final node that is the node or below it, if there
is one. -/
def credit (a : Arena R) (finals : List (NodeId × R)) (id : NodeId) : List R :=
  ((finals.find? fun final => final.1 ∈ a.subtree id).map Prod.snd).toList

lemma Shaped.mem_subtree {k : NodeId} (h : a.Shaped) (hid : a.contains id = true) :
    k ∈ a.subtree id ↔ a.Leads id k := by
  obtain ⟨-, hmem⟩ := mem_reachable h.closed [id]
  refine (hmem k).trans ⟨?_, fun hleads => ⟨id, by simp, hid, hleads⟩⟩
  rintro ⟨r, hr, -, hleads⟩
  exact List.mem_singleton.1 hr ▸ hleads

end Arena

namespace Ledger

variable {R : Type}

/-- The ledger for the nodes there are: a number that is not in use stands for no node. -/
def kept (L : Ledger R) (a : Arena R) : Ledger R := fun id => if a.contains id then L id else []

/-- The ledger with one more simulation, by the trees before it and after it. -/
def booked (L : Ledger R) (before after : Arena R) (finals : List (NodeId × R)) : Ledger R := fun id =>
  L.kept before id ++ after.credit finals id

end Ledger

/-- What can be told of the simulations of a method of searching. -/
class Recounts (μ R ε : Type) [SearchMethod μ R ε] where
  /-- The roots of the trees. -/
  roots : μ → List NodeId
  /-- A simulation that tells at which nodes it ended, one in each tree, and which utilities it found for the
  owners. -/
  recount : Deliberation μ R ε (List (NodeId × R))
  recount_step : (recount >>= fun _ => pure ⟨⟩) = (SearchMethod.step : Deliberation μ R ε Unit)

namespace TreeAgent

variable {μ R ε : Type} [SearchMethod μ R ε] [Recounts μ R ε] {x y : Hosted (TreeAgent μ R ε) ε}
  {clean : Hosted (TreeAgent μ R ε) ε → Ruleset → Prop} {L : Ledger R}

/-- The calls that an agent gets from the beginning of a match on, with the ledger that they leave.  Before
the match the agent may be anything that counts as clean for the rules of the match. -/
inductive Calls (clean : Hosted (TreeAgent μ R ε) ε → Ruleset → Prop) :
    Hosted (TreeAgent μ R ε) ε → Ledger R → Prop
  | prepare {role : Role} {ruleset : Ruleset} {startClock playClock : Clock.Settings Binary64}
      {x y : Hosted (TreeAgent μ R ε) ε} : clean x ruleset →
      (TreeAgent.prepare role ruleset startClock playClock : Deliberation μ R ε Unit) x = .ok ⟨⟩ y →
      Calls clean y fun _ => []
  | elsewhere {x y : Hosted (TreeAgent μ R ε) ε} {L : Ledger R} : Calls clean x L → Undisturbed x y →
      Calls clean y L
  | develop {ply : Int} {view : View} {x y : Hosted (TreeAgent μ R ε) ε} {L : Ledger R} : Calls clean x L →
      (SearchMethod.develop ply view : Deliberation μ R ε Unit) x = .ok ⟨⟩ y →
      Calls clean y (L.kept x.own.arena)
  | step {finals : List (NodeId × R)} {x y : Hosted (TreeAgent μ R ε) ε} {L : Ledger R} : Calls clean x L →
      (Recounts.recount : Deliberation μ R ε (List (NodeId × R))) x = .ok finals y →
      Calls clean y (L.booked x.own.arena y.own.arena finals)
  | commit {move : Move} {x y : Hosted (TreeAgent μ R ε) ε} {L : Ledger R} : Calls clean x L →
      (SearchMethod.commit move : Deliberation μ R ε Unit) x = .ok ⟨⟩ y →
      Calls clean y (L.kept x.own.arena)

omit [Recounts μ R ε] in
/-- A match for which there is a game begins with an empty arena. -/
lemma prepare_eq_ok {role : Role} {ruleset : Ruleset} {startClock playClock : Clock.Settings Binary64}
    (h : (prepare role ruleset startClock playClock : Deliberation μ R ε Unit) x = .ok ⟨⟩ y) :
    ∃ game, x.own.seat.source ruleset = .ok (some game) ∧
      (SearchMethod.plant : Deliberation μ R ε Unit) (seated x game role startClock playClock) = .ok ⟨⟩ y := by
  obtain ⟨_, x₁, hseat, -⟩ := Action.bind_eq_ok.1 h
  obtain ⟨seat, htake, -⟩ := onSeat_eq_ok.1 hseat
  obtain ⟨_, seat₁, hmodify, h₁⟩ := Action.bind_eq_ok.1 htake
  cases hmodify
  rw [Action.bind_of_ok (Action.get_run _)] at h₁
  obtain ⟨found, hfound, h₂⟩ := Action.lift_bind_eq_ok.1 h₁
  cases found with
  | none =>
    obtain ⟨_, _, -, hthrow⟩ := Action.bind_eq_ok.1 h₂
    cases hthrow
  | some game =>
    rw [prepare_run startClock playClock hfound] at h
    exact ⟨game, hfound, h⟩

variable [Scalar R]

/-- A simulation has been taken into the valuations of the nodes that it brought something, and into no
other. -/
def Counts (finals : List (NodeId × R)) (a a' : Arena R) : Prop := ∀ id n, a'.find? id = some n →
  n.valuation = (a'.credit finals id).foldl Valuation.take (a.valuation? id)

/-- A simulation has been counted: it leaves the roots where they are, and ends at or below each of them. -/
structure Tallies (finals : List (NodeId × R)) (x y : Hosted (TreeAgent μ R ε) ε) : Prop where
  counts : Counts finals x.own.arena y.own.arena
  roots : Recounts.roots R ε y.own.memory = Recounts.roots R ε x.own.memory
  ends : ∀ root ∈ Recounts.roots R ε x.own.memory, y.own.arena.contains root = true ∧
    (y.own.arena.credit finals root).length = 1

/-- What is kept by all that a method of searching does, and makes it account for the simulations. -/
structure Audited (clean : Hosted (TreeAgent μ R ε) ε → Ruleset → Prop)
    (inv : Hosted (TreeAgent μ R ε) ε → Prop) : Prop where
  prepare : ∀ {role : Role} {ruleset : Ruleset} {startClock playClock : Clock.Settings Binary64}
    {x y : Hosted (TreeAgent μ R ε) ε}, clean x ruleset →
    (TreeAgent.prepare role ruleset startClock playClock : Deliberation μ R ε Unit) x = .ok ⟨⟩ y →
    inv y ∧ ∀ id, y.own.arena.valuation? id = none
  elsewhere : ∀ {x y}, inv x → Undisturbed x y → inv y
  develop : ∀ {ply view x y}, inv x →
    (SearchMethod.develop ply view : Deliberation μ R ε Unit) x = .ok ⟨⟩ y →
    inv y ∧ x.own.arena.Inherits y.own.arena
  recount : ∀ {finals x y}, inv x →
    (Recounts.recount : Deliberation μ R ε (List (NodeId × R))) x = .ok finals y →
    inv y ∧ Tallies finals x y
  commit : ∀ {move x y}, inv x → (SearchMethod.commit move : Deliberation μ R ε Unit) x = .ok ⟨⟩ y →
    inv y ∧ x.own.arena.Inherits y.own.arena

/-- The valuations of the nodes agree with a ledger. -/
def Accounts (L : Ledger R) (a : Arena R) : Prop :=
  ∀ id n, a.find? id = some n → n.valuation = Valuation.ofAll (L id)

lemma Accounts.kept {a : Arena R} (h : Accounts L a) (id : NodeId) :
    a.valuation? id = Valuation.ofAll (L.kept a id) := by
  unfold Ledger.kept Arena.contains
  cases hn : a.find? id with
  | none => simp [Arena.valuation?, hn, Valuation.ofAll]
  | some n => simpa [Arena.valuation?, hn] using h id n hn

/-- Under all calls the valuations agree with the ledger. -/
theorem Audited.accounts {inv : Hosted (TreeAgent μ R ε) ε → Prop} (haudited : Audited clean inv)
    (h : Calls clean x L) : inv x ∧ Accounts L x.own.arena := by
  induction h with
  | prepare hclean hrun =>
    obtain ⟨hinv, hnone⟩ := haudited.prepare hclean hrun
    refine ⟨hinv, fun id n hn => ?_⟩
    rw [← Arena.valuation?_of_find? hn, hnone]
    rfl
  | elsewhere _ hxy ih =>
    refine ⟨haudited.elsewhere ih.1 hxy, ?_⟩
    rw [hxy.arena]
    exact ih.2
  | develop _ hrun ih =>
    obtain ⟨hinv, hinherits⟩ := haudited.develop ih.1 hrun
    exact ⟨hinv, fun id n hn => (hinherits id n hn).trans (ih.2.kept id)⟩
  | step _ hrun ih =>
    obtain ⟨hinv, htallies⟩ := haudited.recount ih.1 hrun
    refine ⟨hinv, fun id n hn => ?_⟩
    rw [htallies.counts id n hn, ih.2.kept, Ledger.booked, Valuation.ofAll_append]
  | commit _ hrun ih =>
    obtain ⟨hinv, hinherits⟩ := haudited.commit ih.1 hrun
    exact ⟨hinv, fun id n hn => (hinherits id n hn).trans (ih.2.kept id)⟩

lemma Accounts.playouts {a : Arena R} {id : NodeId} (h : Accounts L a) (hid : a.contains id = true) :
    a.playouts id = (L id).length := by
  obtain ⟨n, hn⟩ := Arena.contains_iff.1 hid
  rw [Arena.playouts, Arena.valuation?_of_find? hn, h id n hn, Valuation.playouts_ofAll]

/-- Each simulation is one more playout of each root. -/
theorem Audited.simulates {inv : Hosted (TreeAgent μ R ε) ε → Prop} (haudited : Audited clean inv) {k : Nat}
    (hx : inv x) (h : Simulates k x y) : inv y ∧
      Recounts.roots R ε y.own.memory = Recounts.roots R ε x.own.memory ∧
      ∀ root ∈ Recounts.roots R ε x.own.memory, y.own.arena.playouts root = x.own.arena.playouts root + k := by
  induction h with
  | refl => exact ⟨hx, rfl, fun _ _ => rfl⟩
  | elsewhere _ hyz ih =>
    obtain ⟨hinv, hroots, hplayouts⟩ := ih hx
    refine ⟨haudited.elsewhere hinv hyz, by rw [hyz.memory, hroots], fun root hroot => ?_⟩
    rw [hyz.arena, hplayouts root hroot]
  | step _ hrun ih =>
    obtain ⟨hinv, hroots, hplayouts⟩ := ih hx
    rw [← Recounts.recount_step] at hrun
    obtain ⟨finals, z, hrecount, hpure⟩ := Action.bind_eq_ok.1 hrun
    cases hpure
    obtain ⟨hinv', htallies⟩ := haudited.recount hinv hrecount
    refine ⟨hinv', htallies.roots.trans hroots, fun root hroot => ?_⟩
    obtain ⟨hlive, hlength⟩ := htallies.ends root (hroots.symm ▸ hroot)
    obtain ⟨n, hn⟩ := Arena.contains_iff.1 hlive
    rw [Arena.playouts, Arena.valuation?_of_find? hn, htallies.counts root n hn, Valuation.playouts_foldl_take,
      hlength, ← Nat.add_assoc, ← hplayouts root hroot]
    rfl

end TreeAgent

end GameSearch
