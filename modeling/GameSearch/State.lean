import Std.Data.ExtTreeMap
import Std.Data.ExtTreeSet
import GameSearch.Data.SortedSet
import GameSearch.Term
import GameSearch.Text.Listing

/-!
# States of a game

A state is a finite set of facts.  A view has the same shape: it is what one role sees of a state.
Sets of states and tables by role are extensional trees, so that two of them with the same content
are equal, and they list their content in increasing order.
-/

namespace GameSearch

/-- A position of a game: the facts that hold in it. -/
structure State where
  facts : SortedSet Term
deriving DecidableEq

/-- What a role sees of a state. -/
abbrev View := State

/-- A table by role. -/
abbrev ByRole (α : Type) := Std.ExtTreeMap Role α

namespace State

theorem ext {s t : State} (h : s.facts = t.facts) : s = t := by
  cases s; cases t; simp_all

/-- States are ordered as the lists of their facts. -/
instance : Ord State := ⟨fun s t => compare s.facts.toList t.facts.toList⟩

instance : Std.TransOrd State where
  eq_swap {a b} :=
    @Std.OrientedCmp.eq_swap (List Term) compare _ a.facts.toList b.facts.toList
  isLE_trans {a b c} :=
    @Std.TransCmp.isLE_trans (List Term) compare _ a.facts.toList b.facts.toList c.facts.toList

instance : Std.LawfulEqOrd State where
  compare_self {a} := @Std.ReflCmp.compare_self (List Term) compare _ a.facts.toList
  eq_of_compare {a b} h := by
    have h := @Std.LawfulEqCmp.eq_of_compare (List Term) compare _ a.facts.toList b.facts.toList h
    exact ext (SortedSet.ext fun x => by simp [SortedSet.mem_def, h])

instance : Hashable State := ⟨fun s => hash s.facts.toList⟩

instance : Membership Term State := ⟨fun s t => t ∈ s.facts⟩

instance (t : Term) (s : State) : Decidable (t ∈ s) := inferInstanceAs (Decidable (t ∈ s.facts))

instance : EmptyCollection State := ⟨⟨∅⟩⟩

/-- The state in which the listed facts hold. -/
def ofList (facts : List Term) : State := ⟨SortedSet.ofList facts⟩

/-- The facts in increasing order. -/
def toList (s : State) : List Term := s.facts.toList

def insert (s : State) (fact : Term) : State := ⟨s.facts.insert fact⟩

def size (s : State) : Nat := s.facts.size

def isEmpty (s : State) : Bool := s.facts.isEmpty

def contains (s : State) (fact : Term) : Bool := decide (fact ∈ s)

/-- Whether every fact of `t` holds in `s`. -/
def includes (s t : State) : Bool := t.toList.all s.contains

def named (s : State) (name : String) : List Term := s.toList.filter (·.name = name)

/-- The facts of any other name. -/
def withoutNamed (s : State) (name : String) : List Term := s.toList.filter (·.name ≠ name)

def text (s : State) : String := braced (s.toList.map Term.text)

instance : ToString State := ⟨text⟩

@[simp] theorem mem_ofList {l : List Term} {t : Term} : t ∈ ofList l ↔ t ∈ l :=
  SortedSet.mem_ofList

@[simp] theorem mem_insert {s : State} {t u : Term} : u ∈ s.insert t ↔ u = t ∨ u ∈ s :=
  SortedSet.mem_insert

@[simp] theorem mem_toList {s : State} {t : Term} : t ∈ s.toList ↔ t ∈ s := Iff.rfl

theorem includes_iff {s t : State} : s.includes t = true ↔ ∀ f ∈ t, f ∈ s := by
  simp [includes, contains]

theorem ext_mem {s t : State} (h : ∀ f, f ∈ s ↔ f ∈ t) : s = t := ext (SortedSet.ext h)

end State

/-- A set of states. -/
abbrev StateSet := Std.ExtTreeSet State

def StateSet.text (states : StateSet) : String := braced (states.toList.map State.text)

end GameSearch
