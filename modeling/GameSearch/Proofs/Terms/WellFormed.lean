import GameSearch.Proofs.Control
import GameSearch.Proofs.Terms.Trees

/-!
# Well-formed terms

A term is well formed if it is the text of a tree.  `State.control?_lists` says that the two ways to ask who is
in control of a state of well-formed facts agree: to look for the text of the fact about a role, and to read the
roles off the facts of this name.
-/

namespace GameSearch

namespace Term

/-- A term is the text of a tree. -/
def IsWellFormed (t : Term) : Prop := ∃ tree : Tree, tree.term? = .ok t

namespace IsWellFormed

variable {t role : Term} {ts : List Term}

lemma whole (h : t.IsWellFormed) : Whole t.chars := by
  obtain ⟨tree, htree⟩ := h
  obtain ⟨u, -, hu, -, hwhole, -⟩ := tree.term?_run
  cases htree.symm.trans hu
  exact hwhole

/-- The arguments can be read off a well-formed term, and they are well formed themselves. -/
lemma exists_arguments? (h : t.IsWellFormed) :
    ∃ ts, t.arguments? = .ok ts ∧ ∀ u ∈ ts, u.IsWellFormed := by
  obtain ⟨tree, htree⟩ := h
  obtain ⟨u, ts, hu, hts, -, -, harguments⟩ := tree.term?_run
  cases htree.symm.trans hu
  refine ⟨ts, harguments, fun v hv => ?_⟩
  obtain ⟨argument, -, hargument⟩ := (mem_of_mapM hts v).1 hv
  exact ⟨argument, hargument⟩

/-- A name and well-formed terms make a well-formed term. -/
lemma apply (name : Name) (ts : List Term) (h : ∀ u ∈ ts, u.IsWellFormed) (ht : ofParts? name.text ts = .ok t) :
    t.IsWellFormed := by
  have htrees : ∃ trees : List Tree, trees.mapM Tree.term? = .ok ts := by
    clear ht
    induction ts with
    | nil => exact ⟨[], rfl⟩
    | cons u ts ih =>
      obtain ⟨tree, htree⟩ := h u List.mem_cons_self
      obtain ⟨trees, htrees⟩ := ih fun v hv => h v (List.mem_cons_of_mem u hv)
      refine ⟨tree :: trees, ?_⟩
      rw [List.mapM_cons, htree, htrees]
      rfl
  obtain ⟨trees, htrees⟩ := htrees
  refine ⟨.apply name trees, ?_⟩
  rw [Tree.term?, htrees]
  exact ht

/-- The fact that a role is in control can be taken apart, whatever the role is made of. -/
lemma arguments?_controlOf (h : role.IsWellFormed) : (controlOf role).arguments? = .ok [role] :=
  arguments?_compound (by decide) (by simpa using h.whole)

end IsWellFormed

end Term

namespace State

variable {s : State}

/-- Well-formed facts can be taken apart, so that the roles in control can be listed. -/
lemma exists_control? (h : ∀ f ∈ s, f.IsWellFormed) : ∃ control, s.control? = .ok control := by
  have hnamed : ∀ fact ∈ s.named "control", ∃ ts, fact.arguments? = .ok ts := by
    intro fact hfact
    obtain ⟨ts, hts, -⟩ := (h fact (List.mem_filter.1 hfact).1).exists_arguments?
    exact ⟨ts, hts⟩
  obtain ⟨arguments, harguments⟩ := exists_mapM_eq_ok hnamed
  rw [control?, harguments]
  exact ⟨_, rfl⟩

/-- In a state of well-formed facts the roles in control can be listed.  All of them are well formed, and a
well-formed role is listed if and only if the fact that it is in control holds. -/
theorem control?_lists (h : ∀ f ∈ s, f.IsWellFormed) : ∃ control, s.control? = .ok control ∧
    (∀ role ∈ control, role.IsWellFormed) ∧
    ∀ role : Role, role.IsWellFormed → (s.isInControl role = true ↔ role ∈ control) := by
  obtain ⟨control, hcontrol⟩ := exists_control? h
  refine ⟨control, hcontrol, ?_, ?_⟩
  · intro role hrole
    obtain ⟨fact, hfact, hargument⟩ := (mem_control?_iff hcontrol).1 hrole
    obtain ⟨ts, hts, hwell⟩ := (h fact (List.mem_filter.1 hfact).1).exists_arguments?
    cases hts.symm.trans hargument
    exact hwell role List.mem_cons_self
  · intro role hrole
    constructor
    · intro hin
      exact mem_control?_of_isInControl hcontrol hin hrole.arguments?_controlOf
    · intro hlisted
      exact isInControl_of_mem_control? hcontrol hlisted

/-! ## A feud -/

namespace Feud

def white : Role := .symbol "white"

def blue : Role := .symbol "blue"

/-- A role that is made of the two others. -/
def team : Role := .compound "team" white [blue]

/-- A state with two roles in control and two more facts of this name: one of two roles, and one of none. -/
def state : State :=
  .ofList [controlOf white, controlOf team, .compound "control" white [blue], .symbol "control"]

lemma isWellFormed_white : white.IsWellFormed := .apply ⟨"white", by decide, by decide⟩ [] (by simp) rfl

lemma isWellFormed_blue : blue.IsWellFormed := .apply ⟨"blue", by decide, by decide⟩ [] (by simp) rfl

lemma isWellFormed_pair (name : Term.Name) : (Term.compound name.text white [blue]).IsWellFormed :=
  .apply name [white, blue] (by simp [isWellFormed_white, isWellFormed_blue]) rfl

lemma isWellFormed_team : team.IsWellFormed := isWellFormed_pair ⟨"team", by decide, by decide⟩

def controlName : Term.Name := ⟨"control", by decide, by decide⟩

lemma isWellFormed_facts : ∀ f ∈ state, f.IsWellFormed := by
  intro f hf
  rw [state, mem_ofList] at hf
  simp only [List.mem_cons, List.not_mem_nil, or_false] at hf
  rcases hf with rfl | rfl | rfl | rfl
  · exact .apply controlName [white] (by simp [isWellFormed_white]) rfl
  · exact .apply controlName [team] (by simp [isWellFormed_team]) rfl
  · exact isWellFormed_pair controlName
  · exact .apply controlName [] (by simp) rfl

end Feud

/-- The theorem applies to this state.  The team of two is in control, and so is one of the two, but not the
other one, although it occurs in two of the facts. -/
theorem control?_lists_feud : (∀ f ∈ Feud.state, f.IsWellFormed) ∧ ∃ control, Feud.state.control? = .ok control ∧
    Feud.team ∈ control ∧ Feud.white ∈ control ∧ Feud.blue ∉ control := by
  refine ⟨Feud.isWellFormed_facts, ?_⟩
  obtain ⟨control, hcontrol, -, hlists⟩ := control?_lists Feud.isWellFormed_facts
  refine ⟨control, hcontrol, (hlists _ Feud.isWellFormed_team).1 ?_, (hlists _ Feud.isWellFormed_white).1 ?_, ?_⟩
  · decide
  · decide
  · intro hblue
    have hin := (hlists _ Feud.isWellFormed_blue).2 hblue
    revert hin
    decide

end State

end GameSearch
