import GameSearch.Fault
import GameSearch.Text.Blank

/-!
# Ground terms

A bare symbol (`x`, `dealt`), a number (`3`) or a compound term (`cell(1,2,b)`) of a rules
language.  The facts of a state, the roles and the moves are all terms.  A term is kept as its
text, without blanks, so that two constructions of the same term are equal.  `Term.name` and
`Term.arguments?` take that text apart again.
-/

namespace GameSearch

/-- A ground term, as its text. -/
structure Term where
  text : String
  text_ne_empty : text ≠ ""
  text_blankless : ∀ c ∈ text.toList, isBlank c = false

/-- A player of a game. -/
abbrev Role := Term

/-- What a player can do in a position. -/
abbrev Move := Term

namespace Term

theorem ext {a b : Term} (h : a.text = b.text) : a = b := by
  cases a; cases b; simp_all

theorem ext_iff {a b : Term} : a = b ↔ a.text = b.text := ⟨fun h => h ▸ rfl, ext⟩

instance : DecidableEq Term := fun a b => decidable_of_iff (a.text = b.text) ext_iff.symm

instance : Hashable Term := ⟨fun t => hash t.text⟩

instance : ToString Term := ⟨Term.text⟩

/-- Terms are ordered by their texts. -/
instance : Ord Term := ⟨fun a b => compare a.text b.text⟩

instance : Std.TransOrd Term where
  eq_swap {a b} := @Std.OrientedCmp.eq_swap String compare _ a.text b.text
  isLE_trans {a b c} := @Std.TransCmp.isLE_trans String compare _ a.text b.text c.text

instance : Std.LawfulEqOrd Term where
  compare_self {a} := @Std.ReflCmp.compare_self String compare _ a.text
  eq_of_compare {a b} h := ext (@Std.LawfulEqCmp.eq_of_compare String compare _ a.text b.text h)

def chars (t : Term) : List Char := t.text.toList

/-- A term from a text, whose blanks do not count. -/
def ofText? (s : String) : Except Fault Term :=
  if h : stripBlanks s = "" then .error .emptyTerm
  else .ok ⟨stripBlanks s, h, fun _ => not_isBlank_of_mem_stripBlanks⟩

/-- A symbol that is known to be one. -/
def symbol (s : String) (ne : s ≠ "" := by decide)
    (blankless : s.toList.any isBlank = false := by decide) : Term :=
  ⟨s, ne, fun c hc => by simpa using List.any_eq_false.1 blankless c hc⟩

def ofInt (n : Int) : Term where
  text := String.ofList ((if n < 0 then ['-'] else []) ++ Nat.toDigits 10 n.natAbs)
  text_ne_empty h := by
    have := congrArg String.toList h
    simp [String.toList_ofList] at this
  text_blankless c hc := by
    rw [String.toList_ofList, List.mem_append] at hc
    rcases hc with hc | hc
    · split at hc <;> simp_all [isBlank]
    · have := Nat.isDigit_of_mem_toDigits (b := 10) (by decide) (by decide) hc
      simp only [Char.isDigit, Bool.and_eq_true, decide_eq_true_eq] at this
      simp only [isBlank, Bool.or_eq_false_iff, decide_eq_false_iff_not]
      refine ⟨⟨⟨⟨⟨?_, ?_⟩, ?_⟩, ?_⟩, ?_⟩, ?_⟩ <;> (rintro rfl; revert this; decide)

/-- The characters of some terms, separated by commas. -/
def commaSeparated : List Term → List Char
  | [] => []
  | [t] => t.chars
  | t :: rest => t.chars ++ ',' :: commaSeparated rest

theorem not_isBlank_of_mem_commaSeparated {ts : List Term} {c : Char}
    (h : c ∈ commaSeparated ts) : isBlank c = false := by
  induction ts with
  | nil => simp [commaSeparated] at h
  | cons t rest ih =>
    cases rest with
    | nil => exact t.text_blankless c h
    | cons u rest =>
      simp only [commaSeparated, List.mem_append, List.mem_cons] at h
      rcases h with h | rfl | h
      · exact t.text_blankless c h
      · decide
      · exact ih h

/-- A name applied to one or more arguments: `name(a,b)`.  Blanks of the name do not count. -/
def compound (name : String) (first : Term) (rest : List Term) : Term where
  text := String.ofList
    ((stripBlanks name).toList ++ '(' :: (commaSeparated (first :: rest) ++ [')']))
  text_ne_empty h := by
    have := congrArg String.toList h
    simp [String.toList_ofList] at this
  text_blankless c hc := by
    simp only [String.toList_ofList, List.mem_append, List.mem_cons, List.not_mem_nil,
      or_false] at hc
    rcases hc with hc | rfl | hc | rfl
    · exact not_isBlank_of_mem_stripBlanks hc
    · decide
    · exact not_isBlank_of_mem_commaSeparated hc
    · decide

/-- A name applied to any number of arguments; a bare symbol if there is none. -/
def ofParts? (name : String) : List Term → Except Fault Term
  | [] => ofText? name
  | first :: rest => .ok (compound name first rest)

/-- What stands before the first opening parenthesis: `cell` for `cell(1,2,b)`, the whole text of
a symbol. -/
def name (t : Term) : String := String.ofList (t.chars.takeWhile (· ≠ '('))

/-- By how much a character changes the nesting level. -/
def nesting (c : Char) : Int := if c = '(' then 1 else if c = ')' then -1 else 0

/-- The pieces of a text between its commas at nesting level zero, for a text that starts at the
given level. -/
def pieces (level : Int) : List Char → List (List Char)
  | [] => [[]]
  | c :: rest =>
    if c = ',' ∧ level = 0 then [] :: pieces 0 rest
    else
      match pieces (level + nesting c) rest with
      | [] => [[c]]
      | piece :: others => (c :: piece) :: others

/-- The arguments of a term, none for a symbol.  A text with an opening parenthesis must end in a
closing one, and no argument may be empty. -/
def arguments? (t : Term) : Except Fault (List Term) :=
  match t.chars.dropWhile (· ≠ '(') with
  | [] => .ok []
  | _ :: inner =>
    if inner.getLast? ≠ some ')' then .error (.malformedTerm t.text)
    else (pieces 0 inner.dropLast).mapM fun piece => ofText? (String.ofList piece)

def arity? (t : Term) : Except Fault Nat := t.arguments?.map List.length

/-- Whether the text is a whole number: digits after an optional minus sign. -/
def isNumber (t : Term) : Bool :=
  let ds := match t.chars with
    | '-' :: rest => rest
    | cs => cs
  !ds.isEmpty && ds.all Char.isDigit

end Term

/-- The player that stands for chance. -/
def chance : Role := .symbol "random"

end GameSearch
