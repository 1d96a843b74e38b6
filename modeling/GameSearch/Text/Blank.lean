/-!
# Blanks

The six ASCII whitespace characters, and the two ways of removing them from a text: everywhere, or
at both ends.
-/

namespace GameSearch

/-- Space, tab, line feed, vertical tab, form feed and carriage return. -/
def isBlank (c : Char) : Bool :=
  c = ' ' || c = '\t' || c = '\n' || c = '\x0b' || c = '\x0c' || c = '\r'

/-- The text without its blanks. -/
def stripBlanks (s : String) : String := String.ofList (s.toList.filter (!isBlank ·))

/-- The characters without the blanks at either end. -/
def trimChars (cs : List Char) : List Char :=
  ((cs.dropWhile isBlank).reverse.dropWhile isBlank).reverse

/-- The text without the blanks at either end. -/
def trimBlanks (s : String) : String := String.ofList (trimChars s.toList)

@[simp] theorem toList_stripBlanks (s : String) :
    (stripBlanks s).toList = s.toList.filter (!isBlank ·) := String.toList_ofList

theorem not_isBlank_of_mem_stripBlanks {s : String} {c : Char} (h : c ∈ (stripBlanks s).toList) :
    isBlank c = false := by
  simp only [toList_stripBlanks, List.mem_filter, Bool.not_eq_true'] at h
  exact h.2

/-- A text without blanks is left alone. -/
theorem stripBlanks_eq_self {s : String} (h : ∀ c ∈ s.toList, isBlank c = false) :
    stripBlanks s = s := by
  rw [← String.toList_inj, toList_stripBlanks, List.filter_eq_self]
  intro c hc
  simp [h c hc]

end GameSearch
