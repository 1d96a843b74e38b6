import Mathlib.Data.List.TakeWhile
import GameSearch.Clock.Settings
import GameSearch.Proofs.Control

/-!
# The grammar of clock texts

A clock text is of one of five forms, made of pieces that the reader of seconds takes: `T`, `T | I`,
`T d D`, `T | I d D` or `d D`.  Any text of one of these forms is taken and any other one is refused, whatever
the reader of seconds is, as long as it does not take a text with a separator in it.
-/

namespace GameSearch.Clock

/-- The forms of a clock text, with the pieces that stand in them. -/
inductive Form where
  | total (total : List Char)
  | totalIncrement (total increment : List Char)
  | totalDelay (total delay : List Char)
  | full (total increment delay : List Char)
  | delay (delay : List Char)

namespace SecondsReader

variable {α : Type}

/-- A piece of a clock text tells a number that a clock can be set to. -/
def Accepts (reader : SecondsReader α) (piece : List Char) (x : α) : Prop :=
  reader.read (pieceText piece) = some x ∧ reader.isTime x = true

/-- No accepted number is written with nothing or with a separator. -/
structure IsPlain (reader : SecondsReader α) : Prop where
  read_empty : reader.read "" = none
  notMem_of_read : ∀ s x, reader.read s = some x → reader.isTime x = true →
    '|' ∉ s.toList ∧ 'd' ∉ s.toList

end SecondsReader

namespace Form

/-- The text of a form. -/
def chars : Form → List Char
  | total t => t
  | totalIncrement t i => t ++ '|' :: i
  | totalDelay t d => t ++ 'd' :: d
  | full t i d => t ++ '|' :: (i ++ 'd' :: d)
  | delay d => 'd' :: d

/-- The form of a text whose total time has been read. -/
def afterTotal (t : List Char) : List Char → Form
  | '|' :: rest =>
    match rest.dropWhile (· ≠ 'd') with
    | 'd' :: d => full t (rest.takeWhile (· ≠ 'd')) d
    | _ => totalIncrement t (rest.takeWhile (· ≠ 'd'))
  | 'd' :: d => totalDelay t d
  | _ => total t

/-- The form that a text is cut into. -/
def ofChars : List Char → Form
  | 'd' :: d => delay d
  | cs => afterTotal (cs.takeWhile isPart) (cs.dropWhile isPart)

/-- The settings that the pieces of a form tell, those of a missing piece being zero. -/
def Tells {α : Type} (reader : SecondsReader α) : Form → Settings α → Prop
  | total t, s => reader.Accepts t s.total ∧ s.increment = reader.zero ∧ s.delay = reader.zero
  | totalIncrement t i, s => reader.Accepts t s.total ∧ reader.Accepts i s.increment ∧ s.delay = reader.zero
  | totalDelay t d, s => reader.Accepts t s.total ∧ s.increment = reader.zero ∧ reader.Accepts d s.delay
  | full t i d, s => reader.Accepts t s.total ∧ reader.Accepts i s.increment ∧ reader.Accepts d s.delay
  | delay d, s => reader.Accepts d s.delay ∧ s.total = reader.zero ∧ s.increment = reader.zero

end Form

/-! ## Cutting at separators -/

/-- What may follow the total time of a clock text. -/
inductive IsRest : List Char → Prop
  | none : IsRest []
  | increment (rest : List Char) : IsRest ('|' :: rest)
  | delay (d : List Char) : IsRest ('d' :: d)

/-- What may follow the increment of a clock text. -/
inductive IsEnd : List Char → Prop
  | none : IsEnd []
  | delay (d : List Char) : IsEnd ('d' :: d)

lemma mem_dropWhile {p : Char → Bool} {c : Char} {cs : List Char} (h : c ∈ cs) (hc : p c = false) :
    c ∈ cs.dropWhile p := by
  rw [← List.takeWhile_append_dropWhile (p := p) (l := cs), List.mem_append] at h
  refine h.resolve_left fun htake => ?_
  rw [List.mem_takeWhile_imp htake] at hc
  cases hc

lemma dropWhile_cases (p : Char → Bool) (cs : List Char) :
    cs.dropWhile p = [] ∨ ∃ c rest, cs.dropWhile p = c :: rest ∧ p c = false := by
  have hhead := List.head?_dropWhile_not p cs
  cases hdrop : cs.dropWhile p with
  | nil => exact .inl rfl
  | cons c rest =>
    rw [hdrop] at hhead
    exact .inr ⟨c, rest, rfl, hhead⟩

lemma isEnd_dropWhile (cs : List Char) : IsEnd (cs.dropWhile (· ≠ 'd')) := by
  rcases dropWhile_cases (· ≠ 'd') cs with hdrop | ⟨c, d, hdrop, hc⟩
  · exact hdrop ▸ .none
  · obtain rfl : c = 'd' := by simpa using hc
    exact hdrop ▸ .delay d

lemma isRest_dropWhile (cs : List Char) : IsRest (cs.dropWhile isPart) := by
  rcases dropWhile_cases isPart cs with hdrop | ⟨c, rest, hdrop, hc⟩
  · exact hdrop ▸ .none
  · have hseparator : c = '|' ∨ c = 'd' := by
      by_contra hne
      rw [not_or] at hne
      simp [isPart, hne] at hc
    rcases hseparator with rfl | rfl
    · exact hdrop ▸ .increment rest
    · exact hdrop ▸ .delay rest

/-! ## Pieces -/

lemma mem_trimChars {cs : List Char} {c : Char} (h : c ∈ cs) (hc : isBlank c = false) : c ∈ trimChars cs := by
  rw [trimChars, List.mem_reverse]
  exact mem_dropWhile (List.mem_reverse.2 (mem_dropWhile h hc)) hc

/-- What is neither a blank nor the infinity sign is left in the text of a piece. -/
lemma mem_pieceText {piece : List Char} {c : Char} (h : c ∈ piece) (hblank : isBlank c = false) (hc : c ≠ '∞') :
    c ∈ (pieceText piece).toList := by
  rw [pieceText, String.toList_ofList, List.mem_flatMap]
  exact ⟨c, mem_trimChars h hblank, by simp [hc]⟩

namespace SecondsReader

variable {α : Type} {reader : SecondsReader α} {text : String} {piece : List Char} {i x : α} {fault : Fault}

lemma IsPlain.ne_nil (h : reader.IsPlain) (hpiece : reader.Accepts piece x) : piece ≠ [] := by
  rintro rfl
  have hread : reader.read "" = some x := hpiece.1
  rw [h.read_empty] at hread
  cases hread

lemma IsPlain.notMem (h : reader.IsPlain) (hpiece : reader.Accepts piece x) : '|' ∉ piece ∧ 'd' ∉ piece := by
  obtain ⟨hbar, hd⟩ := h.notMem_of_read _ _ hpiece.1 hpiece.2
  exact ⟨fun hmem => hbar (mem_pieceText hmem rfl (by decide)),
    fun hmem => hd (mem_pieceText hmem rfl (by decide))⟩

lemma seconds?_eq_ok (text : String) : reader.seconds? text piece = .ok x ↔ reader.Accepts piece x := by
  rw [seconds?, Accepts]
  cases hread : reader.read (pieceText piece) with
  | none => exact ⟨nofun, fun h => nomatch h.1⟩
  | some y =>
    rw [Option.some_inj]
    dsimp only
    split
    · rename_i htime
      rw [Except.ok.injEq]
      exact ⟨fun h => ⟨h, h ▸ htime⟩, And.left⟩
    · rename_i htime
      exact ⟨nofun, fun h => absurd (h.1 ▸ h.2) htime⟩

lemma bind_eq_error {β γ : Type} {q : Except Fault β} {f : β → Except Fault γ} :
    q >>= f = .error fault ↔ q = .error fault ∨ ∃ b, q = .ok b ∧ f b = .error fault := by
  cases q <;> simp [bind, Except.bind]

/-- A fault tells that a clock text is malformed, and in which of its pieces. -/
def IsRegular (fault : Fault) : Prop := fault.kind = .clockFormat ∧ ∀ clock, fault ≠ .malformedClock clock

lemma isRegular_of_seconds? (h : reader.seconds? text piece = .error fault) : IsRegular fault := by
  rw [seconds?] at h
  split at h
  · cases h
    exact ⟨rfl, fun _ => nofun⟩
  · split at h
    · cases h
    · cases h
      exact ⟨rfl, fun _ => nofun⟩

lemma rest?_delay :
    reader.rest? text ('d' :: piece) = .ok (i, x) ↔ i = reader.zero ∧ reader.Accepts piece x := by
  rw [← seconds?_eq_ok text]
  change (do return (reader.zero, ← reader.seconds? text piece)) = Except.ok (i, x) ↔ _
  simp [bind_eq_ok, pure, Except.pure, @eq_comm _ i, and_comm]

lemma rest?_increment {rest : List Char} :
    reader.rest? text ('|' :: rest) = .ok (i, x) ↔ reader.Accepts (rest.takeWhile (· ≠ 'd')) i ∧
      reader.delay? text (rest.dropWhile (· ≠ 'd')) = .ok x := by
  rw [← seconds?_eq_ok text]
  simp [rest?, bind_eq_ok, pure, Except.pure]

end SecondsReader

namespace Form

variable {α : Type} {reader : SecondsReader α} {form : Form} {settings : Settings α} {cs t i d rest : List Char}

lemma ofChars_of_ne (h : ∀ d, cs = 'd' :: d → False) :
    ofChars cs = afterTotal (cs.takeWhile isPart) (cs.dropWhile isPart) := by
  rw [ofChars]
  exact h

lemma chars_afterTotal (h : IsRest rest) : (afterTotal t rest).chars = t ++ rest := by
  cases h with
  | none => exact (List.append_nil t).symm
  | increment rest =>
    rw [afterTotal]
    generalize hdrop : rest.dropWhile (· ≠ 'd') = last
    have hcut : rest.takeWhile (· ≠ 'd') ++ last = rest := by rw [← hdrop, List.takeWhile_append_dropWhile]
    cases hdrop ▸ isEnd_dropWhile rest with
    | none =>
      rw [List.append_nil] at hcut
      rw [hcut]
      rfl
    | delay d =>
      change t ++ '|' :: (rest.takeWhile (· ≠ 'd') ++ 'd' :: d) = _
      rw [hcut]
  | delay d => rfl

/-- Nothing is lost when a text is cut. -/
lemma chars_ofChars (cs : List Char) : (ofChars cs).chars = cs := by
  by_cases hd : ∃ d, cs = 'd' :: d
  · obtain ⟨d, rfl⟩ := hd
    rfl
  · rw [ofChars_of_ne fun d hcs => hd ⟨d, hcs⟩, chars_afterTotal (isRest_dropWhile _),
      List.takeWhile_append_dropWhile]

/-- The total time ends where the first separator stands. -/
lemma ofChars_append (hne : t ≠ []) (ht : '|' ∉ t ∧ 'd' ∉ t) (h : IsRest rest) :
    ofChars (t ++ rest) = afterTotal t rest := by
  have hpart : ∀ c ∈ t, isPart c = true := by
    intro c hc
    have hbar : c ≠ '|' := fun hc' => ht.1 (hc' ▸ hc)
    have hd : c ≠ 'd' := fun hc' => ht.2 (hc' ▸ hc)
    simp [isPart, hbar, hd]
  have hfirst : ∀ d, t ++ rest = 'd' :: d → False := by
    intro d hd
    obtain ⟨c, t', rfl⟩ := List.exists_cons_of_ne_nil hne
    exact ht.2 (by simp [List.cons.inj hd])
  have hstop : rest.takeWhile isPart = [] ∧ rest.dropWhile isPart = rest := by
    cases h <;> exact ⟨rfl, rfl⟩
  rw [ofChars_of_ne hfirst, List.takeWhile_append_of_pos hpart, List.dropWhile_append_of_pos hpart,
    hstop.1, hstop.2, List.append_nil]

lemma forall_ne_of_notMem (hi : 'd' ∉ i) : ∀ c ∈ i, decide (c ≠ 'd') = true :=
  fun _ hc => decide_eq_true fun hd => hi (hd ▸ hc)

lemma afterTotal_increment (hi : 'd' ∉ i) : afterTotal t ('|' :: i) = totalIncrement t i := by
  have hpart := forall_ne_of_notMem hi
  rw [afterTotal, List.dropWhile_eq_nil_iff.2 hpart, List.takeWhile_eq_self_iff.2 hpart]

lemma afterTotal_full (hi : 'd' ∉ i) : afterTotal t ('|' :: (i ++ 'd' :: d)) = full t i d := by
  have hpart := forall_ne_of_notMem hi
  rw [afterTotal, List.dropWhile_append_of_pos hpart, List.takeWhile_append_of_pos hpart]
  simp

/-- A form all of whose pieces are taken is the one that its text is cut into. -/
lemma ofChars_chars (h : reader.IsPlain) (htells : form.Tells reader settings) : ofChars form.chars = form := by
  cases form with
  | total t =>
    rw [chars, ← List.append_nil t, ofChars_append (h.ne_nil htells.1) (h.notMem htells.1) .none,
      List.append_nil, afterTotal]
    · nofun
    · nofun
  | totalIncrement t i =>
    rw [chars, ofChars_append (h.ne_nil htells.1) (h.notMem htells.1) (.increment i),
      afterTotal_increment (h.notMem htells.2.1).2]
  | totalDelay t d =>
    rw [chars, ofChars_append (h.ne_nil htells.1) (h.notMem htells.1) (.delay d), afterTotal]
  | full t i d =>
    rw [chars, ofChars_append (h.ne_nil htells.1) (h.notMem htells.1) (.increment _),
      afterTotal_full (h.notMem htells.2.1).2]
  | delay d => rfl

lemma tells_afterTotal (text : String) (h : IsRest rest) :
    (afterTotal t rest).Tells reader settings ↔ reader.Accepts t settings.total ∧
      reader.rest? text rest = .ok (settings.increment, settings.delay) := by
  cases h with
  | none =>
    change _ ↔ _ ∧ Except.ok (reader.zero, reader.zero) = Except.ok (settings.increment, settings.delay)
    rw [Except.ok.injEq, Prod.mk.injEq, @eq_comm _ reader.zero, @eq_comm _ reader.zero]
    rfl
  | increment rest =>
    rw [SecondsReader.rest?_increment, afterTotal]
    generalize hdrop : rest.dropWhile (· ≠ 'd') = last
    cases hdrop ▸ isEnd_dropWhile rest with
    | none =>
      rw [SecondsReader.delay?, Except.ok.injEq, @eq_comm _ reader.zero]
      rfl
    | delay d =>
      rw [SecondsReader.delay?, SecondsReader.seconds?_eq_ok]
      rfl
  | delay d =>
    rw [SecondsReader.rest?_delay]
    rfl

end Form

namespace SecondsReader

variable {α : Type} {reader : SecondsReader α} {text : String} {rest : List Char} {settings : Settings α}
  {fault : Fault}

/-- A text is read along the form that it is cut into. -/
lemma settings?_eq_ok (h : reader.IsPlain) :
    reader.settings? text = .ok settings ↔ (Form.ofChars (trimChars text.toList)).Tells reader settings := by
  rw [settings?]
  split
  · rename_i hnil
    rw [hnil]
    exact ⟨nofun, fun htells => absurd rfl (h.ne_nil htells.1)⟩
  · rename_i d hd
    rw [hd, Form.ofChars, Form.Tells, ← seconds?_eq_ok text]
    obtain ⟨total, increment, delay⟩ := settings
    simp [delay?, bind_eq_ok, pure, Except.pure, @eq_comm _ reader.zero]
  · rename_i hne
    rw [Form.ofChars_of_ne hne, Form.tells_afterTotal text (isRest_dropWhile _),
      ← seconds?_eq_ok text]
    obtain ⟨total, increment, delay⟩ := settings
    simp [bind_eq_ok, pure, Except.pure]

lemma isRegular_of_delay? (hrest : IsEnd rest) (h : reader.delay? text rest = .error fault) :
    IsRegular fault := by
  cases hrest with
  | none => cases h
  | delay d => exact isRegular_of_seconds? h

lemma isRegular_of_rest? (hrest : IsRest rest) (h : reader.rest? text rest = .error fault) :
    IsRegular fault := by
  cases hrest with
  | none => cases h
  | increment rest =>
    rcases bind_eq_error.1 h with h | ⟨i, -, h⟩
    · exact isRegular_of_seconds? h
    · rcases bind_eq_error.1 h with h | ⟨x, -, h⟩
      · exact isRegular_of_delay? (isEnd_dropWhile rest) h
      · cases h
  | delay d =>
    rcases bind_eq_error.1 h with h | ⟨x, -, h⟩
    · exact isRegular_of_seconds? h
    · cases h

/-- There is never anything left behind the last piece. -/
lemma isRegular_of_settings? (h : reader.settings? text = .error fault) : IsRegular fault := by
  rw [settings?] at h
  split at h
  · cases h
    exact ⟨rfl, fun _ => nofun⟩
  · rcases bind_eq_error.1 h with h | ⟨x, -, h⟩
    · exact isRegular_of_seconds? h
    · cases h
  · rcases bind_eq_error.1 h with h | ⟨total, -, h⟩
    · exact isRegular_of_seconds? h
    · rcases bind_eq_error.1 h with h | ⟨rest, -, h⟩
      · exact isRegular_of_rest? (isRest_dropWhile _) h
      · cases h

/-- A clock text is taken if and only if it is of one of the forms and all its pieces are taken; the pieces
are those of one form only, and tell the settings.  Any other text is refused as a malformed clock, and never
for something left behind the last piece. -/
theorem IsPlain.settings?_eq_ok_iff (h : reader.IsPlain) (text : String) :
    (∀ settings, reader.settings? text = .ok settings ↔
      ∃ form : Form, form.chars = trimChars text.toList ∧ form.Tells reader settings) ∧
    (∀ (form form' : Form) settings settings',
      form.chars = trimChars text.toList → form.Tells reader settings →
      form'.chars = trimChars text.toList → form'.Tells reader settings' → form = form') ∧
    (∀ fault, reader.settings? text = .error fault →
      fault.kind = .clockFormat ∧ ∀ clock, fault ≠ .malformedClock clock) := by
  refine ⟨fun settings => ⟨fun hread => ?_, ?_⟩, ?_, fun fault => isRegular_of_settings?⟩
  · exact ⟨_, Form.chars_ofChars _, (settings?_eq_ok h).1 hread⟩
  · rintro ⟨form, hchars, htells⟩
    rw [settings?_eq_ok h, ← hchars, Form.ofChars_chars h htells]
    exact htells
  · intro form form' settings settings' hchars htells hchars' htells'
    calc form = Form.ofChars form.chars := (Form.ofChars_chars h htells).symm
      _ = Form.ofChars form'.chars := by rw [hchars, hchars']
      _ = form' := Form.ofChars_chars h htells'

end SecondsReader

end GameSearch.Clock

/-! ## Numbers -/

namespace GameSearch.Decimal

variable {c : Char} {cs : List Char}

lemma mem_splitSign (h : c ∈ cs) (hc : c ∉ ['.', 'e', 'E', '+', '-']) : c ∈ (splitSign cs).2 := by
  simp only [List.mem_cons, not_or] at hc
  cases cs with
  | nil => exact h
  | cons sign cs =>
    by_cases hminus : sign = '-'
    · subst hminus
      exact (List.mem_cons.1 h).resolve_left (by tauto)
    · by_cases hplus : sign = '+'
      · subst hplus
        exact (List.mem_cons.1 h).resolve_left (by tauto)
      · simpa [splitSign, hminus, hplus] using h

lemma readInt?_eq_none {s : String} (h : c ∈ s.toList) (hdigit : c.isDigit = false)
    (hc : c ∉ ['.', 'e', 'E', '+', '-']) : readInt? s = none := by
  have hall : (splitSign s.toList).2.all Char.isDigit = false :=
    List.all_eq_false.2 ⟨c, mem_splitSign h hc, by simp [hdigit]⟩
  simp [readInt?, hall]

lemma readExponent?_eq_none (h : c ∈ cs) (hdigit : c.isDigit = false) (hc : c ∉ ['.', 'e', 'E', '+', '-']) :
    readExponent? cs = none := by
  cases cs with
  | nil => cases h
  | cons e cs =>
    rw [readExponent?]
    split
    · rename_i he
      have hmem : c ∈ cs := by
        refine (List.mem_cons.1 h).resolve_left fun hce => hc ?_
        rcases he with rfl | rfl <;> simp [hce]
      exact readInt?_eq_none (by rwa [String.toList_ofList]) hdigit hc
    · rfl

/-- A decimal is made of digits, a point, the mark of an exponent and its sign. -/
lemma readDecimal?_eq_none (h : c ∈ cs) (hdigit : c.isDigit = false) (hc : c ∉ ['.', 'e', 'E', '+', '-']) :
    readDecimal? cs = none := by
  have hdrop : c ∈ cs.dropWhile Char.isDigit := Clock.mem_dropWhile h hdigit
  rw [readDecimal?]
  split
  rename_i frac rest hcut
  have hmem : c ∈ rest := by
    split at hcut
    · rename_i r hpoint
      cases hcut
      rw [hpoint, List.mem_cons] at hdrop
      exact Clock.mem_dropWhile (hdrop.resolve_left fun hpoint => hc (by simp [hpoint])) hdigit
    · cases hcut
      exact hdrop
  rw [readExponent?_eq_none hmem hdigit hc]
  split <;> rfl

/-- The words for infinity have no separator in them, and the other ones are no numbers. -/
lemma readWord?_cases {x : Binary64} (h : readWord? cs = some x) :
    ('|' ∉ cs ∧ 'd' ∉ cs) ∨ x = Binary64.nan := by
  have hlower : ∀ {word : List Char}, cs.map Char.toLower = word → '|' ∉ word → 'd' ∉ word →
      '|' ∉ cs ∧ 'd' ∉ cs := by
    rintro word rfl hbar hd
    exact ⟨fun h => hbar (List.mem_map_of_mem (f := Char.toLower) h),
      fun h => hd (List.mem_map_of_mem (f := Char.toLower) h)⟩
  simp only [readWord?] at h
  split at h
  · rename_i hword
    rcases hword with hword | hword
    · exact .inl (hlower hword (by decide) (by decide))
    · exact .inl (hlower hword (by decide) (by decide))
  · right
    split at h
    · exact (Option.some.inj h).symm
    · split at h
      · exact (Option.some.inj h).symm
      · cases h

end GameSearch.Decimal

namespace GameSearch.Clock

/-- What is no number is not a time. -/
lemma isTime_nan (negative : Bool) :
    Settings.reader.isTime (if negative then -Binary64.nan else Binary64.nan) = false := by
  cases negative <;> decide

/-- The reader of floating-point numbers does not take a text with a separator in it. -/
theorem Settings.isPlain_reader : Settings.reader.IsPlain where
  read_empty := rfl
  notMem_of_read := by
    intro s x hread htime
    change Decimal.readReal? s = some x at hread
    simp only [Decimal.readReal?] at hread
    obtain ⟨y, hy, rfl⟩ := Option.map_eq_some_iff.1 hread
    suffices h : '|' ∉ (Decimal.splitSign s.toList).2 ∧ 'd' ∉ (Decimal.splitSign s.toList).2 from
      ⟨fun hmem => h.1 (Decimal.mem_splitSign hmem (by decide)),
        fun hmem => h.2 (Decimal.mem_splitSign hmem (by decide))⟩
    cases hword : Decimal.readWord? (Decimal.splitSign s.toList).2 with
    | some z =>
      rw [hword, Option.some_or, Option.some_inj] at hy
      subst hy
      rcases Decimal.readWord?_cases hword with h | rfl
      · exact h
      · rw [isTime_nan] at htime
        cases htime
    | none =>
      rw [hword, Option.none_or] at hy
      obtain ⟨decimal, hdecimal, -⟩ := Option.bind_eq_some_iff.1 hy
      refine ⟨fun hmem => ?_, fun hmem => ?_⟩
      · rw [Decimal.readDecimal?_eq_none hmem (by decide) (by decide)] at hdecimal
        cases hdecimal
      · rw [Decimal.readDecimal?_eq_none hmem (by decide) (by decide)] at hdecimal
        cases hdecimal

/-- A text with all three pieces is cut in one way only, and one with its parts in another order is refused. -/
theorem settings?_eq_ok_iff_full :
    Settings.reader.settings? " 60 | 2 d 5 " = .ok ⟨60, 2, 5⟩ ∧
    (∀ (form : Form) settings, form.chars = "60 | 2 d 5".toList → form.Tells Settings.reader settings →
      form = .full "60 ".toList " 2 ".toList " 5".toList) ∧
    ∃ fault, Settings.reader.settings? "60 d 5 | 2" = .error fault ∧ fault.kind = .clockFormat := by
  have htells : (Form.full "60 ".toList " 2 ".toList " 5".toList).Tells Settings.reader ⟨60, 2, 5⟩ :=
    ⟨⟨rfl, by decide⟩, ⟨rfl, by decide⟩, rfl, by decide⟩
  obtain ⟨htakes, hunique, -⟩ := Settings.isPlain_reader.settings?_eq_ok_iff " 60 | 2 d 5 "
  obtain ⟨-, -, hrefuses⟩ := Settings.isPlain_reader.settings?_eq_ok_iff "60 d 5 | 2"
  exact ⟨(htakes _).2 ⟨_, rfl, htells⟩,
    fun form settings hchars hform => hunique form _ settings _ hchars hform rfl htells,
    _, rfl, (hrefuses _ rfl).1⟩

end GameSearch.Clock
