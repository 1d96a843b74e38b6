import Mathlib.Data.List.TakeWhile
import GameSearch.Proofs.Answers
import GameSearch.Proofs.Terms

/-!
# Taking any text apart

`Term.Cut` says, without regard to how a text is scanned, what the parts of a text between its commas at
nesting level zero are.  The level may become negative, as the parentheses of a text need not match.
`Term.ofText?_decodes` says which texts have arguments, and that a name and arguments which were read off
a text make up this text again.
-/

namespace GameSearch.Term

/-- By how much a text changes the nesting level. -/
def rise : List Char → Int
  | [] => 0
  | c :: cs => nesting c + rise cs

/-- A text that starts at a nesting level has no comma at level zero. -/
def Unbroken (level : Int) (cs : List Char) : Prop :=
  ∀ before after, cs = before ++ ',' :: after → level + rise before ≠ 0

/-- The parts of a text that starts at a nesting level, between its commas at level zero. -/
inductive Cut : Int → List Char → List (List Char) → Prop where
  | whole {level : Int} {piece : List Char} (h : Unbroken level piece) : Cut level piece [piece]
  | comma {level : Int} {piece rest : List Char} {others : List (List Char)} (h : Unbroken level piece)
      (hzero : level + rise piece = 0) (hrest : Cut 0 rest others) :
      Cut level (piece ++ ',' :: rest) (piece :: others)

variable {level : Int} {cs ds : List Char} {c : Char} {parts : List (List Char)} {t : Term} {ts : List Term}

/-! ## Parts and pieces -/

lemma unbroken_nil : Unbroken level [] := by
  intro before after h
  simp at h

lemma unbroken_cons : Unbroken level (c :: cs) ↔ ¬(c = ',' ∧ level = 0) ∧ Unbroken (level + nesting c) cs := by
  constructor
  · intro h
    constructor
    · rintro ⟨rfl, hlevel⟩
      apply h [] cs rfl
      simp [rise, hlevel]
    · intro before after hcs
      have hne := h (c :: before) after (by rw [hcs]; rfl)
      rw [rise] at hne
      omega
  · rintro ⟨hc, hcs⟩ before after h
    cases before with
    | nil =>
      obtain ⟨rfl, rfl⟩ := List.cons.inj h
      intro hzero
      apply hc
      simpa [rise] using hzero
    | cons d before =>
      obtain ⟨rfl, rfl⟩ := List.cons.inj h
      have hne := hcs before after rfl
      rw [rise]
      omega

/-- A text without commas at level zero is part of the first piece. -/
lemma pieces_append (h : Unbroken level cs) (ds : List Char) :
    pieces level (cs ++ ds) = glue cs (pieces (level + rise cs) ds) := by
  induction cs generalizing level with
  | nil =>
    have hzero : level + rise [] = level := by simp [rise]
    rw [hzero, List.nil_append]
    exact WholeAt.nil ds
  | cons c cs ih =>
    obtain ⟨hc, hcs⟩ := unbroken_cons.1 h
    have hlevel : level + nesting c + rise cs = level + rise (c :: cs) := by
      rw [rise]
      omega
    rw [List.cons_append, pieces_cons_of_ne hc, ih hcs, hlevel, glue_glue _ _ (pieces_ne_nil _ ds)]
    rfl

lemma Cut.cons (hc : ¬(c = ',' ∧ level = 0)) {piece : List Char} (h : Cut (level + nesting c) cs (piece :: parts)) :
    Cut level (c :: cs) ((c :: piece) :: parts) := by
  cases h with
  | whole h => exact .whole (unbroken_cons.2 ⟨hc, h⟩)
  | comma h hzero hrest =>
    apply Cut.comma (unbroken_cons.2 ⟨hc, h⟩) _ hrest
    rw [rise]
    omega

/-- A text is cut into pieces in one way. -/
theorem cut_iff : Cut level cs parts ↔ pieces level cs = parts := by
  constructor
  · intro h
    induction h with
    | whole h =>
      have hpieces := pieces_append h []
      rw [List.append_nil] at hpieces
      simp [hpieces, pieces, glue]
    | comma h hzero _ ih =>
      rw [pieces_append h, hzero, pieces, if_pos ⟨rfl, rfl⟩, ih]
      simp [glue]
  · rintro rfl
    induction cs generalizing level with
    | nil => exact .whole unbroken_nil
    | cons c cs ih =>
      -- a comma at level zero ends a part, any other character goes to the front of the first part
      by_cases hc : c = ',' ∧ level = 0
      · rw [pieces, if_pos hc]
        obtain ⟨rfl, rfl⟩ := hc
        exact .comma unbroken_nil (by simp [rise]) ih
      · have hcut := @ih (level + nesting c)
        rw [pieces_cons_of_ne hc]
        cases hpieces : pieces (level + nesting c) cs with
        | nil => exact absurd hpieces (pieces_ne_nil _ cs)
        | cons piece others =>
          rw [hpieces] at hcut
          exact hcut.cons hc

/-! ## Putting pieces together -/

/-- Nothing of a text is lost when it is cut. -/
lemma Cut.commaSeparated (h : Cut level cs (ts.map chars)) : commaSeparated ts = cs := by
  generalize hparts : ts.map chars = parts at h
  induction h generalizing ts with
  | whole h =>
    obtain ⟨t, rfl, rfl⟩ := List.map_eq_singleton_iff.1 hparts
    rfl
  | comma h hzero hrest ih =>
    obtain ⟨t, ts, rfl, rfl, hts⟩ := List.map_eq_cons_iff.1 hparts
    have hjoined := ih hts
    cases ts with
    | nil => cases hts; cases hrest
    | cons u us => rw [Term.commaSeparated, hjoined]; simp

lemma Cut.mem (h : Cut level cs parts) {piece : List Char} (hpiece : piece ∈ parts) (hc : c ∈ piece) : c ∈ cs := by
  induction h with
  | whole h => rwa [List.mem_singleton.1 hpiece] at hc
  | comma h hzero hrest ih =>
    rcases List.mem_cons.1 hpiece with rfl | hpiece
    · exact List.mem_append_left _ hc
    · exact List.mem_append_right _ (List.mem_cons_of_mem _ (ih hpiece))

/-! ## The pieces as terms -/

lemma ofText?_eq_error {s : String} {e : Fault} (h : ofText? s = .error e) : e = .emptyTerm := by
  unfold ofText? at h
  split at h
  · exact (Except.error.inj h).symm
  · cases h

lemma stripBlanks_ofList (hcs : ∀ c ∈ cs, isBlank c = false) : stripBlanks (String.ofList cs) = String.ofList cs := by
  apply stripBlanks_eq_self
  rwa [String.toList_ofList]

lemma chars_of_ofText? (hcs : ∀ c ∈ cs, isBlank c = false) (h : ofText? (String.ofList cs) = .ok t) :
    t.chars = cs := by
  unfold ofText? at h
  split at h
  · cases h
  · cases h
    change (stripBlanks (String.ofList cs)).toList = cs
    rw [stripBlanks_ofList hcs, String.toList_ofList]

lemma eq_nil_of_ofText? (hcs : ∀ c ∈ cs, isBlank c = false) {e : Fault} (h : ofText? (String.ofList cs) = .error e) :
    cs = [] := by
  unfold ofText? at h
  split at h
  · rename_i hempty
    rw [stripBlanks_ofList hcs] at hempty
    simpa using congrArg String.toList hempty
  · cases h

/-- What is read off the parts of a text without blanks has these parts as its texts. -/
lemma map_chars_of_mapM (hparts : ∀ piece ∈ parts, ∀ c ∈ piece, isBlank c = false)
    (h : parts.mapM (fun piece => ofText? (String.ofList piece)) = .ok ts) : ts.map chars = parts := by
  have hall := (List.forall₂_and_left parts ts).2 ⟨hparts, forall₂_of_mapM h⟩
  have hchars : List.Forall₂ (fun piece t => t.chars = piece) parts ts :=
    hall.imp fun piece t ⟨hpiece, ht⟩ => chars_of_ofText? hpiece ht
  rw [← List.forall₂_eq_eq_eq, List.forall₂_map_left_iff]
  exact hchars.flip

/-- The parts of a text without blanks can be read unless one of them is empty. -/
lemma mapM_ofText?_eq_error_iff (hparts : ∀ piece ∈ parts, ∀ c ∈ piece, isBlank c = false) :
    (∃ e, parts.mapM (fun piece => ofText? (String.ofList piece)) = .error e) ↔ [] ∈ parts := by
  constructor
  · rintro ⟨e, he⟩
    obtain ⟨piece, hpiece, herror⟩ := exists_of_mapM_eq_error he
    rwa [eq_nil_of_ofText? (hparts piece hpiece) herror] at hpiece
  · intro hnil
    cases h : parts.mapM fun piece => ofText? (String.ofList piece) with
    | error e => exact ⟨e, rfl⟩
    | ok ts =>
      rw [← map_chars_of_mapM hparts h] at hnil
      obtain ⟨t, -, ht⟩ := List.mem_map.1 hnil
      exact absurd (String.toList_eq_nil_iff.1 ht) t.text_ne_empty

/-! ## Reading a term -/

/-- How the text of a term reads. -/
inductive Reading (t : Term) : Prop where
  | symbol (hopen : '(' ∉ t.chars) (hname : t.name = t.text) (harguments : t.arguments? = .ok [])
  | unclosed (hopen : '(' ∈ t.chars) (hlast : t.chars.getLast? ≠ some ')')
      (harguments : t.arguments? = .error (.malformedTerm t.text))
  | compound (before inner : List Char) (hchars : t.chars = before ++ '(' :: (inner ++ [')']))
      (hbefore : '(' ∉ before) (hname : t.name = String.ofList before)
      (harguments : t.arguments? = (pieces 0 inner).mapM fun piece => ofText? (String.ofList piece))

theorem reading (t : Term) : Reading t := by
  have hsplit : t.chars.takeWhile (· ≠ '(') ++ t.chars.dropWhile (· ≠ '(') = t.chars :=
    List.takeWhile_append_dropWhile
  have hbefore : '(' ∉ t.chars.takeWhile (· ≠ '(') := by
    intro h
    simpa using List.mem_takeWhile_imp h
  cases hafter : t.chars.dropWhile (· ≠ '(') with
  | nil =>
    rw [hafter, List.append_nil] at hsplit
    apply Reading.symbol
    · rwa [hsplit] at hbefore
    · rw [name, hsplit]
      exact String.ofList_toList
    · rw [arguments?, hafter]
  | cons c rest =>
    have hc : c = '(' := by
      have hhead := List.head?_dropWhile_not (fun c => decide (c ≠ '(')) t.chars
      rw [hafter] at hhead
      simpa using hhead
    rw [hafter, hc] at hsplit
    by_cases hlast : rest.getLast? = some ')'
    · obtain ⟨inner, rfl⟩ := List.getLast?_eq_some_iff.1 hlast
      apply Reading.compound _ inner hsplit.symm hbefore rfl
      simp only [arguments?, hafter, hlast, ne_eq, not_true_eq_false, if_false, List.dropLast_concat]
    · apply Reading.unclosed
      · rw [← hsplit]
        simp
      · rw [← hsplit, List.getLast?_append, List.getLast?_cons]
        cases h : rest.getLast? with
        | none => simp
        | some d => simpa [h] using hlast
      · simp only [arguments?, hafter, ne_eq, hlast, not_false_eq_true, if_true]

/-- A fault comes up only in a check of the text. -/
lemma arguments?_eq_error {e : Fault} (h : t.arguments? = .error e) : e = .emptyTerm ∨ e = .malformedTerm t.text := by
  cases t.reading with
  | symbol _ _ harguments =>
    rw [harguments] at h
    cases h
  | unclosed _ _ harguments =>
    rw [harguments] at h
    cases h
    exact .inr rfl
  | compound before inner _ _ _ harguments =>
    rw [harguments] at h
    obtain ⟨piece, -, hpiece⟩ := exists_of_mapM_eq_error h
    exact .inl (ofText?_eq_error hpiece)

/-- A text has an opening parenthesis, and either does not end in a closing one or has an empty part between
these two. -/
def IsMalformed (cs : List Char) : Prop :=
  '(' ∈ cs ∧ (cs.getLast? ≠ some ')' ∨ ∃ before inner parts, cs = before ++ '(' :: (inner ++ [')']) ∧
    '(' ∉ before ∧ Cut 0 inner parts ∧ [] ∈ parts)

lemma takeWhile_before {before rest : List Char} (h : '(' ∉ before) :
    (before ++ '(' :: rest).takeWhile (· ≠ '(') = before := by
  have hall : ∀ c ∈ before, decide (c ≠ '(') = true := by
    rintro c hc
    simp only [decide_eq_true_eq]
    rintro rfl
    exact h hc
  rw [List.takeWhile_append_of_pos hall, List.takeWhile_cons_of_neg (by simp), List.append_nil]

section Compound

variable {before inner : List Char} (hchars : t.chars = before ++ '(' :: (inner ++ [')']))
include hchars

lemma blankless_of_mem_pieces : ∀ piece ∈ pieces 0 inner, ∀ c ∈ piece, isBlank c = false := by
  intro piece hpiece c hc
  have hinner : c ∈ inner := (cut_iff.2 rfl).mem hpiece hc
  apply t.text_blankless c
  change c ∈ t.chars
  simp [hchars, hinner]

/-- The first parenthesis of a text is in one place. -/
lemma isMalformed_iff (hbefore : '(' ∉ before) : IsMalformed t.chars ↔ [] ∈ pieces 0 inner := by
  constructor
  · rintro ⟨-, hlast | ⟨before', inner', parts, hchars', hbefore', hcut, hnil⟩⟩
    · apply absurd _ hlast
      rw [hchars, ← List.cons_append, ← List.append_assoc, List.getLast?_concat]
    · -- both ways to write the text divide it at its first parenthesis and before its last one
      rw [hchars] at hchars'
      have hsame : before = before' := by
        rw [← takeWhile_before hbefore, hchars', takeWhile_before hbefore']
      rw [hsame, List.append_cancel_left_eq, List.cons_inj_right, List.append_cancel_right_eq] at hchars'
      rw [hchars', cut_iff.1 hcut]
      exact hnil
  · intro hnil
    refine ⟨by simp [hchars], .inr ⟨before, inner, _, hchars, hbefore, cut_iff.2 rfl, hnil⟩⟩

end Compound

/-- The arguments can be read off a text unless it is malformed. -/
theorem arguments?_eq_error_iff (t : Term) : (∃ e, t.arguments? = .error e) ↔ IsMalformed t.chars := by
  cases t.reading with
  | symbol hopen _ harguments =>
    constructor
    · rintro ⟨e, he⟩
      rw [harguments] at he
      cases he
    · intro h
      exact absurd h.1 hopen
  | unclosed hopen hlast harguments =>
    constructor
    · intro _
      exact ⟨hopen, .inl hlast⟩
    · intro _
      exact ⟨_, harguments⟩
  | compound before inner hchars hbefore _ harguments =>
    rw [harguments, mapM_ofText?_eq_error_iff (blankless_of_mem_pieces hchars), isMalformed_iff hchars hbefore]

/-- What was read off a text makes up this text again. -/
theorem ofParts?_arguments? (h : t.arguments? = .ok ts) : ofParts? t.name ts = .ok t := by
  cases t.reading with
  | symbol _ hname harguments =>
    rw [harguments] at h
    cases h
    have ht := ofText?_chars t
    rw [chars, String.ofList_toList] at ht
    rw [ofParts?, hname, ht]
  | unclosed _ _ harguments =>
    rw [harguments] at h
    cases h
  | compound before inner hchars hbefore hname harguments =>
    rw [harguments] at h
    have hmap := map_chars_of_mapM (blankless_of_mem_pieces hchars) h
    have hjoined : commaSeparated ts = inner := by
      have hcut : Cut 0 inner (ts.map chars) := by
        rw [hmap]
        exact cut_iff.2 rfl
      exact hcut.commaSeparated
    -- the name was a part of a text without blanks, so that none are taken out of it
    have hblankless : ∀ c ∈ before, isBlank c = false := by
      intro c hc
      apply t.text_blankless c
      change c ∈ t.chars
      simp [hchars, hc]
    cases ts with
    | nil => exact absurd hmap.symm (pieces_ne_nil 0 inner)
    | cons first rest =>
      have hterm : compound t.name first rest = t := by
        apply ext
        rw [← String.toList_inj]
        change (compound t.name first rest).chars = t.chars
        rw [chars_compound, hname, stripBlanks_ofList hblankless, String.toList_ofList, hjoined, hchars]
      rw [ofParts?, hterm]

/-- Every text with more than blanks is a term.  Its arguments can be read off unless it is malformed, and a
name and arguments that were read off make up the same term again. -/
theorem ofText?_decodes {text : String} (h : ∃ c ∈ text.toList, isBlank c = false) :
    ∃ t, ofText? text = .ok t ∧ t.text = stripBlanks text ∧
      (∀ e, t.arguments? = .error e → e.kind = .assertion) ∧
      ((∃ e, t.arguments? = .error e) ↔ IsMalformed (stripBlanks text).toList) ∧
      ∀ ts, t.arguments? = .ok ts → ofParts? t.name ts = .ok t := by
  have hne : stripBlanks text ≠ "" := by
    obtain ⟨c, hc, hblank⟩ := h
    intro hempty
    have hmem : c ∈ (stripBlanks text).toList := by
      rw [toList_stripBlanks, List.mem_filter]
      exact ⟨hc, by simp [hblank]⟩
    rw [hempty] at hmem
    cases hmem
  refine ⟨⟨stripBlanks text, hne, fun _ => not_isBlank_of_mem_stripBlanks⟩, dif_neg hne, rfl, ?_, ?_, ?_⟩
  · intro e he
    rcases arguments?_eq_error he with rfl | rfl
    · rfl
    · rfl
  · exact arguments?_eq_error_iff _
  · exact fun ts hts => ofParts?_arguments? hts

/-- The theorem applies to a text whose first parenthesis does not match its last one: the comma, at level
-1, divides nothing. -/
theorem ofText?_decodes_unbalanced : (∃ c ∈ "f( a),b(c ))".toList, isBlank c = false) ∧
    ∃ t u, ofText? "f( a),b(c ))" = .ok t ∧ u.text = "a),b(c)" ∧ t.arguments? = .ok [u] ∧
      ofParts? t.name [u] = .ok t := by
  have hletter : ∃ c ∈ "f( a),b(c ))".toList, isBlank c = false := ⟨'f', by decide, by decide⟩
  obtain ⟨t, ht, htext, -, -, hback⟩ := ofText?_decodes hletter
  obtain rfl : t = symbol "f(a),b(c))" := ext (htext.trans (by decide))
  have harguments : (symbol "f(a),b(c))").arguments? = .ok [symbol "a),b(c)"] := by rfl
  exact ⟨hletter, _, _, ht, rfl, harguments, hback _ harguments⟩

end GameSearch.Term
