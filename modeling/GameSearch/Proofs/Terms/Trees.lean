import Mathlib.Logic.Function.Defs
import GameSearch.Proofs.Terms.Decoding

/-!
# Trees of terms

A term is kept as a text, but stands for a tree: a name that is applied to trees.  `Tree.term?` builds the
term of a tree from the leaves up.  `Tree.reads_back` says that the tree can be read off the text again, so
that different trees have different texts.
-/

namespace GameSearch.Term

/-- A name that a term can have. -/
structure Name where
  text : String
  text_ne_empty : text ≠ ""
  text_isPlain : text.toList.all isPlain = true

inductive Tree where
  | apply (name : Name) (arguments : List Tree)

namespace Name

variable (name : Name)

lemma stripBlanks_text : stripBlanks name.text = name.text :=
  stripBlanks_eq_self (isBlank_of_isPlain name.text_isPlain)

lemma isPlain_stripBlanks : (stripBlanks name.text).toList.all isPlain = true := by
  rw [stripBlanks_text]
  exact name.text_isPlain

lemma ext {name name' : Name} (h : name.text = name'.text) : name = name' := by
  cases name
  cases name'
  cases h
  rfl

/-- A name is a term by itself. -/
def symbol : Term := ⟨name.text, name.text_ne_empty, isBlank_of_isPlain name.text_isPlain⟩

lemma ofText?_text : ofText? name.text = .ok name.symbol := by
  have hchars := ofText?_chars name.symbol
  rw [chars, String.ofList_toList] at hchars
  exact hchars

/-- A name has no arguments. -/
lemma symbol_reads : name.symbol.name = name.text ∧ name.symbol.arguments? = .ok [] := by
  have hplain : '(' ∉ name.symbol.chars := by
    intro h
    have hplain := isPlain_iff.1 (List.all_eq_true.1 name.text_isPlain '(' h)
    exact hplain.2.2.1 rfl
  cases name.symbol.reading with
  | symbol _ hname harguments => exact ⟨hname, harguments⟩
  | unclosed hopen _ _ => exact absurd hopen hplain
  | compound before inner hchars _ _ _ =>
    apply absurd _ hplain
    rw [hchars]
    simp

end Name

namespace Tree

def name : Tree → Name
  | apply name _ => name

def arguments : Tree → List Tree
  | apply _ arguments => arguments

/-- The term of a tree: the name applied to the terms of the arguments. -/
def term? : Tree → Except Fault Term
  | apply name arguments => do ofParts? name.text (← arguments.mapM term?)

/-- What holds of a tree if it holds of its arguments holds of all trees. -/
@[elab_as_elim, induction_eliminator]
theorem induct {P : Tree → Prop}
    (apply : ∀ name arguments, (∀ t ∈ arguments, P t) → P (.apply name arguments)) : ∀ t, P t
  | .apply name arguments => apply name arguments fun t _ => induct apply t

/-- A name and whole terms make a whole term, and they can be read off it. -/
lemma ofParts?_run (name : Name) {ts : List Term} (h : ∀ t ∈ ts, Whole t.chars) :
    ∃ t, ofParts? name.text ts = .ok t ∧ Whole t.chars ∧ t.name = name.text ∧ t.arguments? = .ok ts := by
  cases ts with
  | nil =>
    exact ⟨name.symbol, name.ofText?_text, whole_of_isPlain name.text_isPlain, name.symbol_reads⟩
  | cons first rest =>
    have hplain := name.isPlain_stripBlanks
    refine ⟨compound name.text first rest, rfl, whole_compound hplain h, ?_, arguments?_compound hplain h⟩
    rw [name_compound hplain, name.stripBlanks_text]

/-- The term of a tree can be built. -/
lemma term?_run (tree : Tree) : ∃ t ts, tree.term? = .ok t ∧ tree.arguments.mapM term? = .ok ts ∧
    Whole t.chars ∧ t.name = tree.name.text ∧ t.arguments? = .ok ts := by
  induction tree with
  | apply name arguments ih =>
    obtain ⟨ts, hts⟩ : ∃ ts, arguments.mapM term? = .ok ts := by
      apply exists_mapM_eq_ok
      intro tree htree
      obtain ⟨t, -, ht, -⟩ := ih tree htree
      exact ⟨t, ht⟩
    have hwhole : ∀ t ∈ ts, Whole t.chars := by
      intro t ht
      obtain ⟨tree, htree, hterm⟩ := (mem_of_mapM hts t).1 ht
      obtain ⟨u, -, hu, -, hwhole, -⟩ := ih tree htree
      cases hterm.symm.trans hu
      exact hwhole
    obtain ⟨t, ht, hread⟩ := ofParts?_run name hwhole
    refine ⟨t, ts, ?_, hts, hread⟩
    rw [term?, hts]
    exact ht

/-- Different trees have different terms. -/
theorem term?_injective : Function.Injective term? := by
  intro tree
  induction tree with
  | apply name arguments ih =>
    rintro ⟨name', arguments'⟩ heq
    obtain ⟨t, ts, ht, hts, -, hname, harguments⟩ := term?_run (apply name arguments)
    obtain ⟨u, us, hu, hus, -, hname', harguments'⟩ := term?_run (apply name' arguments')
    obtain rfl : t = u := by
      rw [ht, hu] at heq
      exact Except.ok.inj heq
    obtain rfl : ts = us := by
      rw [harguments] at harguments'
      exact Except.ok.inj harguments'
    -- the arguments have the same terms one by one, so they are the same by the induction hypothesis
    have hall : List.Forall₂ (fun a b => term? a = term? b) arguments arguments' := by
      apply List.forall₂_map_right_iff.1
      apply List.forall₂_map_left_iff (R := (· = ·)).1
      rw [List.forall₂_eq_eq_eq]
      exact (map_eq_of_mapM hts).trans (map_eq_of_mapM hus).symm
    have hsame : List.Forall₂ (· = ·) arguments arguments' :=
      ((List.forall₂_and_left _ _).2 ⟨ih, hall⟩).imp fun a b ⟨hinj, hab⟩ => hinj hab
    rw [List.forall₂_eq_eq_eq] at hsame
    obtain rfl : name = name' := Name.ext (hname.symm.trans hname')
    rw [hsame]

/-- A tree can be built as a text, and its name and its arguments can be read off the text in their order.
Two trees with the same text are the same. -/
theorem reads_back (tree : Tree) : ∃ t ts, tree.term? = .ok t ∧ tree.arguments.mapM term? = .ok ts ∧
    t.name = tree.name.text ∧ t.arguments? = .ok ts ∧ t.arity? = .ok tree.arguments.length ∧
    ∀ other : Tree, other.term?.map text = .ok t.text ↔ tree = other := by
  obtain ⟨t, ts, ht, hts, -, hname, harguments⟩ := tree.term?_run
  have hlength := (forall₂_of_mapM hts).length_eq
  refine ⟨t, ts, ht, hts, hname, harguments, ?_, ?_⟩
  · rw [arity?, harguments, hlength]
    rfl
  · intro other
    constructor
    · intro htext
      obtain ⟨u, -, hu, -⟩ := other.term?_run
      rw [hu] at htext
      obtain rfl : u = t := Term.ext (Except.ok.inj htext)
      exact term?_injective (ht.trans hu.symm)
    · rintro rfl
      rw [ht]
      rfl

end Tree

end GameSearch.Term
