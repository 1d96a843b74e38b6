import Mathlib.Tactic.Lemma
import GameSearch.Term

/-!
# Taking terms apart

`Term.Whole` is said of a text that no comma divides at nesting level zero, whatever follows it.
A name applied to whole terms gives the name and the arguments back.
-/

namespace GameSearch.Term

/-- Whether a character neither divides nor nests terms. -/
def isPlain (c : Char) : Bool := !isBlank c && c ≠ ',' && c ≠ '(' && c ≠ ')'

/-- Puts a text before the first of some pieces. -/
def glue (cs : List Char) : List (List Char) → List (List Char)
  | [] => [cs]
  | piece :: others => (cs ++ piece) :: others

/-- A text stays in one piece at a nesting level and leaves the level as it was. -/
def WholeAt (level : Int) (cs : List Char) : Prop :=
  ∀ rest, pieces level (cs ++ rest) = glue cs (pieces level rest)

/-- A text stays in one piece at every nesting level from zero on. -/
def Whole (cs : List Char) : Prop := ∀ level ≥ 0, WholeAt level cs

variable {level : Int} {cs ds : List Char} {c : Char} {name : String} {first : Term}
  {rest ts : List Term}

lemma pieces_ne_nil (level : Int) (cs : List Char) : pieces level cs ≠ [] := by
  cases cs with
  | nil => simp [pieces]
  | cons c rest =>
    rw [pieces]
    split
    · simp
    · split <;> simp

lemma pieces_cons_of_ne (h : ¬(c = ',' ∧ level = 0)) (cs : List Char) :
    pieces level (c :: cs) = glue [c] (pieces (level + nesting c) cs) := by
  rw [pieces, if_neg h]
  cases pieces (level + nesting c) cs <;> rfl

lemma glue_glue (cs ds : List Char) {l : List (List Char)} (hl : l ≠ []) :
    glue cs (glue ds l) = glue (cs ++ ds) l := by
  cases l with
  | nil => exact absurd rfl hl
  | cons piece others => simp [glue]

lemma WholeAt.nil : WholeAt level [] := by
  intro rest
  cases h : pieces level rest with
  | nil => exact absurd h (pieces_ne_nil level rest)
  | cons piece others => simp [glue, h]

lemma WholeAt.append (hcs : WholeAt level cs) (hds : WholeAt level ds) :
    WholeAt level (cs ++ ds) := by
  intro rest
  rw [List.append_assoc, hcs, hds, glue_glue cs ds (pieces_ne_nil level rest)]

lemma wholeAt_singleton (h : ¬(c = ',' ∧ level = 0)) (hc : nesting c = 0) : WholeAt level [c] := by
  intro rest
  rw [List.singleton_append, pieces_cons_of_ne h, hc, Int.add_zero]

lemma isPlain_iff : isPlain c = true ↔ isBlank c = false ∧ c ≠ ',' ∧ c ≠ '(' ∧ c ≠ ')' := by
  simp [isPlain, and_assoc]

/-- A text without commas and parentheses is whole. -/
lemma whole_of_isPlain (h : cs.all isPlain = true) : Whole cs := by
  intro level _
  induction cs with
  | nil => exact WholeAt.nil
  | cons c cs ih =>
    rw [List.all_cons, Bool.and_eq_true, isPlain_iff] at h
    obtain ⟨⟨-, hcomma, hopen, hclose⟩, hcs⟩ := h
    have hc : nesting c = 0 := by simp [nesting, hopen, hclose]
    exact (wholeAt_singleton (fun h => hcomma h.1) hc).append (ih hcs)

lemma isBlank_of_isPlain (h : cs.all isPlain = true) : ∀ c ∈ cs, isBlank c = false :=
  fun c hc => (isPlain_iff.1 (List.all_eq_true.1 h c hc)).1

lemma wholeAt_commaSeparated (hlevel : 0 < level) (h : ∀ t ∈ ts, Whole t.chars) :
    WholeAt level (commaSeparated ts) := by
  induction ts with
  | nil => exact WholeAt.nil
  | cons t ts ih =>
    have ht := h t List.mem_cons_self level (Int.le_of_lt hlevel)
    have hts := ih fun u hu => h u (List.mem_cons_of_mem t hu)
    cases ts with
    | nil => exact ht
    | cons u ts =>
      have hcomma : WholeAt level [','] := wholeAt_singleton (fun h => by omega) rfl
      exact ht.append (hcomma.append hts)

/-- What a pair of parentheses encloses may be divided without them. -/
lemma wholeAt_enclosed (hcs : WholeAt (level + 1) cs) : WholeAt level ('(' :: (cs ++ [')'])) := by
  intro rest
  have hopen : nesting '(' = 1 := rfl
  have hclose : nesting ')' = -1 := rfl
  rw [List.cons_append, pieces_cons_of_ne (by simp), hopen, List.append_assoc, hcs,
    List.singleton_append, pieces_cons_of_ne (by simp), hclose, Int.add_neg_cancel_right,
    glue_glue _ _ (pieces_ne_nil level rest), glue_glue _ _ (pieces_ne_nil level rest)]
  rfl

/-- At nesting level zero the commas between whole terms divide them. -/
lemma pieces_commaSeparated (h : ∀ t ∈ first :: rest, Whole t.chars) :
    pieces 0 (commaSeparated (first :: rest)) = (first :: rest).map chars := by
  induction rest generalizing first with
  | nil =>
    have hfirst := h first List.mem_cons_self 0 (Int.le_refl 0) []
    rw [List.append_nil] at hfirst
    simp [commaSeparated, hfirst, pieces, glue]
  | cons t rest ih =>
    have hfirst := h first List.mem_cons_self 0 (Int.le_refl 0)
    have hrest := ih fun u hu => h u (List.mem_cons_of_mem first hu)
    rw [commaSeparated, hfirst, pieces, if_pos ⟨rfl, rfl⟩, hrest]
    · simp [glue]
    · exact List.cons_ne_nil t rest

lemma chars_compound : (compound name first rest).chars =
    (stripBlanks name).toList ++ '(' :: (commaSeparated (first :: rest) ++ [')']) := by
  rw [chars, compound, String.toList_ofList]

lemma compound_singleton_inj {t u : Term} : compound name t [] = compound name u [] ↔ t = u := by
  refine ⟨fun heq => ext (String.toList_inj.1 ?_), fun heq => heq ▸ rfl⟩
  have hchars := congrArg chars heq
  rw [chars_compound, chars_compound, List.append_cancel_left_eq, List.cons_inj_right,
    List.append_cancel_right_eq] at hchars
  exact hchars

lemma ofText?_chars (t : Term) : ofText? (String.ofList t.chars) = .ok t := by
  have hstrip : stripBlanks (String.ofList t.chars) = t.text := by
    rw [stripBlanks, String.toList_ofList, List.filter_eq_self.2, chars, String.ofList_toList]
    intro c hc
    simp [t.text_blankless c hc]
  simp [ofText?, hstrip, t.text_ne_empty]

section

variable (hname : (stripBlanks name).toList.all isPlain = true)
include hname

lemma ne_paren_of_isPlain : ∀ c ∈ (stripBlanks name).toList, decide (c ≠ '(') = true :=
  fun c hc => decide_eq_true (isPlain_iff.1 (List.all_eq_true.1 hname c hc)).2.2.1

/-- The name of a compound term ends before its first parenthesis. -/
theorem name_compound : (compound name first rest).name = stripBlanks name := by
  have hbefore := ne_paren_of_isPlain hname
  rw [Term.name, chars_compound, List.takeWhile_append_of_pos hbefore,
    List.takeWhile_cons_of_neg (by simp), List.append_nil, String.ofList_toList]

/-- The arguments of a compound term are what its name was applied to. -/
theorem arguments?_compound (h : ∀ t ∈ first :: rest, Whole t.chars) :
    (compound name first rest).arguments? = .ok (first :: rest) := by
  have hbefore := ne_paren_of_isPlain hname
  have hpieces : (pieces 0 (commaSeparated (first :: rest))).mapM
      (fun piece => ofText? (String.ofList piece)) = .ok (first :: rest) := by
    rw [pieces_commaSeparated h]
    generalize first :: rest = ts
    induction ts with
    | nil => rfl
    | cons t ts ih =>
      rw [List.map_cons, List.mapM_cons, ofText?_chars, ih]
      rfl
  rw [arguments?, chars_compound, List.dropWhile_append_of_pos hbefore,
    List.dropWhile_cons_of_neg (by simp)]
  simp only [List.getLast?_append, List.getLast?_singleton, Option.some_or, ne_eq, not_true_eq_false,
    if_false, List.dropLast_concat]
  exact hpieces

/-- A name applied to whole terms is whole itself. -/
theorem whole_compound (h : ∀ t ∈ first :: rest, Whole t.chars) :
    Whole (compound name first rest).chars := by
  intro level hlevel
  rw [chars_compound]
  exact (whole_of_isPlain hname level hlevel).append
    (wholeAt_enclosed (wholeAt_commaSeparated (by omega) h))

end

end GameSearch.Term
