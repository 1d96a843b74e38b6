/-!
# Terminated texts

A text that ends before its first NUL, as a word of a command line and the message of a fault do.
-/

namespace GameSearch

/-- The text before the first NUL. -/
def untilNul (s : String) : String := String.ofList (s.toList.takeWhile (· ≠ '\x00'))

@[simp] theorem toList_untilNul (s : String) :
    (untilNul s).toList = s.toList.takeWhile (· ≠ '\x00') := String.toList_ofList

/-- No NUL is left. -/
theorem nul_notMem_untilNul (s : String) : '\x00' ∉ (untilNul s).toList := by
  intro h
  rw [toList_untilNul] at h
  have := List.all_takeWhile (l := s.toList) (p := (· ≠ '\x00'))
  rw [List.all_eq_true] at this
  simpa using this _ h

/-- A text without NUL is left alone. -/
theorem untilNul_eq_self {s : String} (h : '\x00' ∉ s.toList) : untilNul s = s := by
  rw [← String.toList_inj, toList_untilNul]
  have whole : ∀ cs : List Char, '\x00' ∉ cs → cs.takeWhile (· ≠ '\x00') = cs := by
    intro cs
    induction cs with
    | nil => intro _; rfl
    | cons c cs ih =>
      intro h
      rw [List.mem_cons, not_or] at h
      rw [List.takeWhile_cons_of_pos (by simpa using Ne.symm h.1), ih h.2]
  exact whole _ h

end GameSearch
