import Mathlib.Tactic.Lemma
import GameSearch.Clock.Basic

/-!
# What a clock charges

A clock is started and stopped any number of times.  Its timeout says how long the next move may take: a
longer one makes the clock expire, and any other one costs what it takes beyond the delay and earns the
increment.  A clock that has expired is never set right again, and one that cannot expire is never charged.
-/

namespace GameSearch.Clock

variable {times : Times} {c c' c'' : Clock} {began now elapsed : Int}

/-- One clock becomes another one by starts and stops, in any order and at any times. -/
inductive Leads (c : Clock) : Clock → Prop where
  | refl : Leads c c
  | start {c' : Clock} (before : Leads c c') (now : Int) : Leads c (c'.start now)
  | stop {c' : Clock} (before : Leads c c') (now : Int) : Leads c (c'.stop now).2

/-- The clock after a move that lasts from one time to another one. -/
def moved (c : Clock) (began now : Int) : Clock := ((c.start began).stop now).2

/-! ## One move -/

lemma isExpired_iff : c.isExpired = true ↔ c.times.canExpire = true ∧ c.left < 0 := by
  simp [isExpired]

lemma isExpired_eq_false_iff (h : c.times.canExpire = true) : c.isExpired = false ↔ 0 ≤ c.left := by
  simp [isExpired, h]

@[simp] lemma times_charge : (c.charge elapsed).times = c.times := by
  rw [charge]
  split
  · rfl
  · dsimp only
    split <;> rfl

lemma charge_of_endless (h : c.times.canExpire = false) : c.charge elapsed = c := by
  simp [charge, h]

/-- A move costs what it takes beyond the delay; the increment is credited if that could be paid. -/
lemma left_charge (h : c.times.canExpire = true) :
    (c.charge elapsed).left = if c.left - max 0 (elapsed - c.times.delay) < 0
      then c.left - max 0 (elapsed - c.times.delay)
      else c.left - max 0 (elapsed - c.times.delay) + c.times.increment := by
  simp only [charge, isExpired, h, Bool.not_true, Bool.false_eq_true, if_false, Bool.true_and,
    decide_eq_true_eq]
  split <;> rfl

/-- A clock expires by a move that takes longer than its timeout, and by no other one. -/
theorem isExpired_charge_iff (h : c.times.canExpire = true) (hleft : 0 ≤ c.left) (hdelay : 0 ≤ c.times.delay)
    (hincrement : 0 ≤ c.times.increment) : (c.charge elapsed).isExpired = true ↔ c.timeout < elapsed := by
  rw [isExpired_iff, times_charge, and_iff_right h, left_charge h, timeout, if_pos h]
  split <;> omega

theorem left_charge_of_not_isExpired (h : c.times.canExpire = true)
    (hexpired : (c.charge elapsed).isExpired = false) :
    (c.charge elapsed).left = c.left - max 0 (elapsed - c.times.delay) + c.times.increment := by
  rw [isExpired_eq_false_iff (by rwa [times_charge])] at hexpired
  rw [left_charge h] at hexpired ⊢
  split
  · rename_i hover
    rw [if_pos hover] at hexpired
    omega
  · rfl

/-- A clock that has expired gets no increment. -/
theorem charge_of_isExpired (h : c.isExpired = true) :
    (c.charge elapsed).isExpired = true ∧ (c.charge elapsed).left ≤ c.left := by
  obtain ⟨hcan, hleft⟩ := isExpired_iff.1 h
  have hover : c.left - max 0 (elapsed - c.times.delay) < 0 := by omega
  rw [isExpired_iff, times_charge, left_charge hcan, if_pos hover]
  exact ⟨⟨hcan, by omega⟩, by omega⟩

/-! ## Starts and stops -/

lemma stop_of_idle (h : c.startedAt = none) : (c.stop now).2 = { c with lastElapsed := some 0 } := by
  simp [stop, h]

lemma stop_of_started (h : c.startedAt = some began) : (c.stop now).2 =
    { c.charge (now - began) with startedAt := none, lastElapsed := some (now - began) } := by
  simp [stop, h]

/-- A stop leaves what is left as it is, or as a charge leaves it. -/
lemma stop_cases (c : Clock) (now : Int) : (c.stop now).2.times = c.times ∧
    ((c.stop now).2.left = c.left ∨ ∃ elapsed, (c.stop now).2.left = (c.charge elapsed).left) := by
  cases hstarted : c.startedAt with
  | none =>
    rw [stop_of_idle hstarted]
    exact ⟨rfl, .inl rfl⟩
  | some began =>
    rw [stop_of_started hstarted]
    exact ⟨times_charge, .inr ⟨now - began, rfl⟩⟩

lemma times_moved : (c.moved began now).times = c.times := (stop_cases (c.start began) now).1

/-- A move is charged with the time that it takes. -/
lemma left_moved : (c.moved began now).left = (c.charge (now - began)).left := by
  rw [moved, stop_of_started (c := c.start began) rfl]
  change ((c.start began).charge (now - began)).left = _
  cases hcan : c.times.canExpire with
  | false =>
    rw [charge_of_endless hcan, charge_of_endless (c := c.start began) hcan]
    rfl
  | true =>
    rw [left_charge hcan, left_charge (c := c.start began) hcan]
    rfl

lemma isExpired_moved : (c.moved began now).isExpired = (c.charge (now - began)).isExpired := by
  rw [isExpired, isExpired, times_moved, left_moved, times_charge]

lemma Leads.times_eq (h : c.Leads c') : c'.times = c.times := by
  induction h with
  | refl => rfl
  | start _ _ ih => exact ih
  | stop _ now ih => rw [(stop_cases _ now).1, ih]

/-- A clock that cannot expire is never charged. -/
theorem Leads.left_of_endless (h : c.Leads c') (hendless : c.times.canExpire = false) : c'.left = c.left := by
  induction h with
  | refl => rfl
  | start _ _ ih => exact ih
  | @stop c' before now ih =>
    rw [← before.times_eq] at hendless
    rcases (stop_cases c' now).2 with hleft | ⟨elapsed, hleft⟩
    · rw [hleft, ih]
    · rw [hleft, charge_of_endless hendless, ih]

/-- A clock that has expired stays so, and does not recover any time. -/
theorem Leads.isExpired (h : c.Leads c') (hexpired : c.isExpired = true) :
    c'.isExpired = true ∧ c'.left ≤ c.left := by
  obtain ⟨hcan, hover⟩ := isExpired_iff.1 hexpired
  suffices hleft : c'.left ≤ c.left from ⟨isExpired_iff.2 ⟨h.times_eq ▸ hcan, by omega⟩, hleft⟩
  induction h with
  | refl => exact Int.le_refl _
  | start _ _ ih => exact ih
  | @stop c' before now ih =>
    rcases (stop_cases c' now).2 with hleft | ⟨elapsed, hleft⟩
    · rwa [hleft]
    · have hexpired' : c'.isExpired = true := isExpired_iff.2 ⟨before.times_eq ▸ hcan, by omega⟩
      rw [hleft]
      exact Int.le_trans (charge_of_isExpired hexpired').2 ih

/-- What starts and stops do to a clock: it is not charged if it cannot expire or if no move has begun; a
move makes it expire if and only if the move takes longer than the timeout, and costs what it takes beyond
the delay, less the increment, if it does not; and a clock that has expired stays so. -/
theorem Leads.charges_moves (h : (ofTimes times).Leads c) :
    (times.canExpire = false → c.left = times.total ∧ c.isExpired = false) ∧
    (times.canExpire = true → 0 ≤ times.delay → 0 ≤ times.increment → c.isExpired = false → ∀ began now,
      ((c.moved began now).isExpired = true ↔ c.timeout < now - began) ∧
      ((c.moved began now).isExpired = false →
        (c.moved began now).left = c.left - max 0 (now - began - times.delay) + times.increment)) ∧
    (c.startedAt = none → ∀ now, (c.stop now).2.left = c.left) ∧
    (c.isExpired = true → ∀ c', c.Leads c' → c'.isExpired = true ∧ c'.left ≤ c.left) := by
  have htimes : c.times = times := h.times_eq
  subst htimes
  refine ⟨fun hendless => ⟨h.left_of_endless hendless, by simp [Clock.isExpired, hendless]⟩,
    fun hcan hdelay hincrement hlasts began now => ?_, fun hidle now => by rw [stop_of_idle hidle],
    fun hexpired c' h' => h'.isExpired hexpired⟩
  rw [isExpired_moved, left_moved]
  exact ⟨isExpired_charge_iff hcan ((isExpired_eq_false_iff hcan).1 hlasts) hdelay hincrement,
    left_charge_of_not_isExpired hcan⟩

/-- A clock with an increment and a delay. -/
def blitz : Times := ⟨5, 3, 2, true⟩

/-- After a move that took all the time there was, the next one may take five units, but not six: the clock
has then expired for good. -/
theorem charges_moves_blitz : (ofTimes blitz).Leads ((ofTimes blitz).moved 0 7) ∧
    ((ofTimes blitz).moved 0 7).isExpired = false ∧ ((ofTimes blitz).moved 0 7).timeout = 5 ∧
    (((ofTimes blitz).moved 0 7).moved 10 15).isExpired = false ∧
    (((ofTimes blitz).moved 0 7).moved 10 15).left = 3 ∧
    (((ofTimes blitz).moved 0 7).moved 10 16).isExpired = true ∧
    ∀ c, (((ofTimes blitz).moved 0 7).moved 10 16).Leads c → c.isExpired = true ∧ c.left ≤ -1 := by
  have h : (ofTimes blitz).Leads ((ofTimes blitz).moved 0 7) := (Leads.refl.start 0).stop 7
  have hlasts : ((ofTimes blitz).moved 0 7).isExpired = false := by decide
  obtain ⟨-, hmoves, -, -⟩ := h.charges_moves
  obtain ⟨hexpires, hcosts⟩ := hmoves rfl (by decide) (by decide) hlasts 10 15
  obtain ⟨hexpires', -⟩ := hmoves rfl (by decide) (by decide) hlasts 10 16
  have hin : (((ofTimes blitz).moved 0 7).moved 10 15).isExpired = false := by
    rw [← Bool.not_eq_true, hexpires]
    decide
  have hout : (((ofTimes blitz).moved 0 7).moved 10 16).isExpired = true := hexpires'.2 (by decide)
  obtain ⟨-, -, -, hstays⟩ := ((h.start 10).stop 16).charges_moves
  exact ⟨h, hlasts, by decide, hin, hcosts hin, hout, hstays hout⟩

end GameSearch.Clock
