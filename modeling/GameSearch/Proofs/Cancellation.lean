import Mathlib.Data.Nat.Find
import Mathlib.Logic.Function.Iterate
import GameSearch.Proofs.Action
import GameSearch.Search.Repeater

/-!
# The scope of a cancellation

A repeated function may cancel the run that it is called in, and it may raise; between runs anybody may
cancel the next one.  `Used.run_ends` says how each run of a repeater ends, whatever happened to it before.  A
run that returns takes all cancellations back.  One that raises does not, so that they are left for the next run.
-/

namespace GameSearch.Repeater

variable {σ : Type}

/-! ## Functions and clocks -/

/-- What happens in a call of a function. -/
structure Call (σ : Type) where
  inner : σ
  cancels : Bool
  fault : Option Fault

/-- Calls a function. -/
def calling (func : σ → Call σ) : Action (Repeater σ) Unit := do
  let c ← lift fun s => .ok (func s) (func s).inner
  if c.cancels then cancel
  if let some e := c.fault then throw e

/-- Reads a clock. -/
def reading (clock : σ → Int × σ) : Action σ Int := fun s => .ok (clock s).1 (clock s).2

variable (func : σ → Call σ) (clock : σ → Int × σ)

/-- Repeats a function until a time limit by a clock. -/
def invoke (timeout : Int) (limit : Nat) : Action (Repeater σ) Outcome :=
  run (reading clock) (calling func) timeout limit

/-- The state after a call, when the clock has been read. -/
def next (s : σ) : σ := (clock (func s).inner).2

/-- The call that `n` others precede. -/
def nth (s : σ) (n : Nat) : Call σ := func ((next func clock)^[n] s)

/-- The time at the end of the call that `n` others precede. -/
def time (s : σ) (n : Nat) : Int := (clock (nth func clock s n).inner).1

/-- At the end of the call that `n` others precede, a run is cancelled: it was at its start, or a call has
done so. -/
def Pending (cancelled : Bool) (s : σ) (n : Nat) : Prop :=
  cancelled = true ∨ ∃ k ≤ n, (nth func clock s k).cancels = true

/-- A run goes on after the call that `n` others precede. -/
structure GoesOn (deadline : Int) (cancelled : Bool) (s : σ) (n : Nat) : Prop where
  fault : (nth func clock s n).fault = none
  early : time func clock s n < deadline
  free : ¬Pending func clock cancelled s n

variable {func clock} {deadline start timeout : Int} {cancelled left : Bool} {s : σ} {n count limit : Nat} {e : Fault}
  {r r' : Repeater σ}

lemma pending_iff (h : ∀ k < n, GoesOn func clock deadline cancelled s k) :
    Pending func clock cancelled s n ↔ (cancelled || (nth func clock s n).cancels) = true := by
  rw [Bool.or_eq_true, Pending]
  refine or_congr_right ⟨?_, fun hcancels => ⟨n, Nat.le_refl _, hcancels⟩⟩
  rintro ⟨k, hk, hcancels⟩
  rcases Nat.lt_or_eq_of_le hk with hlt | rfl
  · exact absurd (.inr ⟨k, Nat.le_refl _, hcancels⟩) (h k hlt).free
  · exact hcancels

/-! ## Runs -/

lemma calling_of_none (h : (func s).fault = none) :
    calling func ⟨s, cancelled⟩ = .ok ⟨⟩ ⟨(func s).inner, cancelled || (func s).cancels⟩ := by
  cases hcancels : (func s).cancels <;>
    simp [calling, lift, cancel, bind, EStateM.bind, h, hcancels]

lemma calling_of_some (h : (func s).fault = some e) :
    calling func ⟨s, cancelled⟩ = .error e ⟨(func s).inner, cancelled || (func s).cancels⟩ := by
  cases hcancels : (func s).cancels <;>
    simp [calling, lift, cancel, bind, EStateM.bind, h, hcancels]

/-- A call that does not raise, and what is done at its end. -/
lemma runUntil_of_none (h : (func s).fault = none) (done : Nat) :
    runUntil (reading clock) (calling func) deadline (count + 1) done ⟨s, cancelled⟩ =
      if (clock (func s).inner).1 < deadline ∧ (cancelled || (func s).cancels) = false then
        runUntil (reading clock) (calling func) deadline count (done + 1)
          ⟨next func clock s, cancelled || (func s).cancels⟩
      else .ok (done + 1, (clock (func s).inner).1) ⟨next func clock s, cancelled || (func s).cancels⟩ := by
  rw [runUntil, Action.bind_of_ok (calling_of_none h)]
  simp only [bind, EStateM.bind, lift, reading, Action.get_run, next, Bool.and_eq_true, decide_eq_true_eq,
    Bool.not_eq_true']
  split <;> rfl

/-- As long as a run goes on, the calls are made one after the other. -/
lemma runUntil_of_goesOn (h : ∀ k < n, GoesOn func clock deadline cancelled s k) :
    runUntil (reading clock) (calling func) deadline (n + count) 0 ⟨s, cancelled⟩ =
      runUntil (reading clock) (calling func) deadline count n ⟨(next func clock)^[n] s, cancelled⟩ := by
  induction n generalizing count with
  | zero => rw [Nat.zero_add]; rfl
  | succ n ih =>
    have hlast := h n n.lt_succ_self
    have hbefore : ∀ k < n, GoesOn func clock deadline cancelled s k := fun k hk => h k (Nat.lt_succ_of_lt hk)
    have hfree : (cancelled || (nth func clock s n).cancels) = false := by
      rw [← Bool.not_eq_true, ← pending_iff hbefore]
      exact hlast.free
    have hcancelled : cancelled = false := (Bool.or_eq_false_iff.1 hfree).1
    rw [Nat.add_assoc, Nat.add_comm 1, ih hbefore, runUntil_of_none hlast.fault,
      if_pos ⟨hlast.early, hfree⟩, Function.iterate_succ_apply']
    rw [nth] at hfree
    rw [hfree, hcancelled]

lemma invoke_eq (r : Repeater σ) : invoke func clock timeout limit r =
    match runUntil (reading clock) (calling func) ((clock r.inner).1 + timeout) limit 0
      ⟨(clock r.inner).2, r.isCancelled⟩ with
    | .ok (iterations, time) r' => .ok ⟨iterations, time - (clock r.inner).1⟩ { inner := r'.inner }
    | .error e r' => .error e r' := by
  simp only [invoke, run, bind, EStateM.bind, lift, reading]
  cases runUntil (reading clock) (calling func) ((clock r.inner).1 + timeout) limit 0
    ⟨(clock r.inner).2, r.isCancelled⟩ <;> rfl

/-- A run whose calls all go on reaches the limit to their number. -/
lemma invoke_of_goesOn (hstart : clock r.inner = (start, s))
    (h : ∀ k < limit, GoesOn func clock (start + timeout) r.isCancelled s k) :
    invoke func clock timeout limit r = .error .outOfSteps ⟨(next func clock)^[limit] s, r.isCancelled⟩ := by
  rw [invoke_eq, hstart, ← Nat.add_zero limit, runUntil_of_goesOn h]
  rfl

/-- A run ends with the first call that raises. -/
lemma invoke_of_some (hstart : clock r.inner = (start, s)) (hn : n < limit)
    (h : ∀ k < n, GoesOn func clock (start + timeout) r.isCancelled s k) (he : (nth func clock s n).fault = some e) :
    invoke func clock timeout limit r =
      .error e ⟨(nth func clock s n).inner, r.isCancelled || (nth func clock s n).cancels⟩ := by
  obtain ⟨count, rfl⟩ := Nat.exists_eq_add_of_lt hn
  rw [invoke_eq, hstart, Nat.add_assoc, runUntil_of_goesOn h, runUntil, Action.bind_of_error (calling_of_some he)]
  rfl

/-- A run ends with the first call after which it is late or cancelled. -/
lemma invoke_of_none (hstart : clock r.inner = (start, s)) (hn : n < limit)
    (h : ∀ k < n, GoesOn func clock (start + timeout) r.isCancelled s k) (he : (nth func clock s n).fault = none)
    (hstop : start + timeout ≤ time func clock s n ∨ Pending func clock r.isCancelled s n) :
    invoke func clock timeout limit r =
      .ok ⟨n + 1, time func clock s n - start⟩ { inner := (next func clock)^[n + 1] s } := by
  obtain ⟨count, rfl⟩ := Nat.exists_eq_add_of_lt hn
  rw [invoke_eq, hstart, Nat.add_assoc, runUntil_of_goesOn h, runUntil_of_none he, if_neg, Function.iterate_succ_apply']
  · rfl
  · rintro ⟨hearly, hfree⟩
    rcases hstop with hlate | hpending
    · exact absurd hearly (Int.not_lt.2 hlate)
    · rw [pending_iff h, nth, hfree] at hpending
      cases hpending

/-! ## One run after another -/

variable (func clock) in
/-- What can have become of a repeater: whether it was cancelled since its last run has ended, and whether it
was left cancelled by that run.  A run that returns leaves it free. -/
inductive Used : (cancelled left : Bool) → Repeater σ → Prop
  | new (s : σ) : Used false false { inner := s }
  | elsewhere {cancelled left : Bool} {r : Repeater σ} (h : Used cancelled left r) (s : σ) :
    Used cancelled left { r with inner := s }
  | cancel {cancelled left : Bool} {r r' : Repeater σ} (h : Used cancelled left r) (hrun : cancel r = .ok ⟨⟩ r') :
    Used true left r'
  | returns {cancelled left : Bool} {r r' : Repeater σ} {o : Outcome} {timeout : Int} {limit : Nat}
    (h : Used cancelled left r) (hrun : invoke func clock timeout limit r = .ok o r') : Used false false r'
  | raises {cancelled left : Bool} {r r' : Repeater σ} {e : Fault} {timeout : Int} {limit : Nat}
    (h : Used cancelled left r) (hrun : invoke func clock timeout limit r = .error e r') : Used false r'.isCancelled r'

/-- A run that returns takes back what cancelled it. -/
lemma isCancelled_of_ok {o : Outcome} (h : invoke func clock timeout limit r = .ok o r') : r'.isCancelled = false := by
  rw [invoke_eq] at h
  split at h
  · cases h
    rfl
  · cases h

lemma Used.isCancelled_eq (h : Used func clock cancelled left r) : r.isCancelled = (cancelled || left) := by
  induction h with
  | new s => rfl
  | elsewhere h s ih => exact ih
  | cancel h hrun ih =>
    cases hrun
    rfl
  | returns h hrun ih => exact isCancelled_of_ok hrun
  | raises h hrun ih => rfl

/-- However a repeater was used, a run of it makes at least one call.  It ends with the first call that raises,
or at whose end the time is up or a cancellation is pending: one made in this run or since the last one has
ended, or one that the last one has left.  A run that returns counts its calls and leaves no cancellation, one
that raises leaves what is pending. -/
theorem Used.run_ends (h : Used func clock cancelled left r) (timeout : Int) (limit : Nat) :
    ∃ start s, clock r.inner = (start, s) ∧
      ((∃ n < limit, (∀ k < n, GoesOn func clock (start + timeout) (cancelled || left) s k) ∧
        (((nth func clock s n).fault = none ∧
            (start + timeout ≤ time func clock s n ∨ Pending func clock (cancelled || left) s n) ∧
            invoke func clock timeout limit r =
              .ok ⟨n + 1, time func clock s n - start⟩ ⟨(next func clock)^[n + 1] s, false⟩) ∨
          ∃ e kept, (nth func clock s n).fault = some e ∧
            (kept = true ↔ Pending func clock (cancelled || left) s n) ∧
            invoke func clock timeout limit r = .error e ⟨(nth func clock s n).inner, kept⟩)) ∨
      (∀ k < limit, GoesOn func clock (start + timeout) (cancelled || left) s k) ∧
        invoke func clock timeout limit r = .error .outOfSteps ⟨(next func clock)^[limit] s, cancelled || left⟩) := by
  rw [← h.isCancelled_eq]
  refine ⟨(clock r.inner).1, (clock r.inner).2, rfl, ?_⟩
  by_cases hall : ∀ k < limit, GoesOn func clock ((clock r.inner).1 + timeout) r.isCancelled (clock r.inner).2 k
  · exact .inr ⟨hall, invoke_of_goesOn rfl hall⟩
  · -- the first call after which the run does not go on
    classical
    have hsome : ∃ n, n < limit ∧
        ¬GoesOn func clock ((clock r.inner).1 + timeout) r.isCancelled (clock r.inner).2 n := by
      simpa using hall
    obtain ⟨hn, hlast⟩ := Nat.find_spec hsome
    have hbefore : ∀ k < Nat.find hsome,
        GoesOn func clock ((clock r.inner).1 + timeout) r.isCancelled (clock r.inner).2 k := by
      intro k hk
      by_contra hnot
      exact Nat.find_min hsome hk ⟨Nat.lt_trans hk hn, hnot⟩
    refine .inl ⟨Nat.find hsome, hn, hbefore, ?_⟩
    cases hfault : (nth func clock (clock r.inner).2 (Nat.find hsome)).fault with
    | none =>
      have hstop : (clock r.inner).1 + timeout ≤ time func clock (clock r.inner).2 (Nat.find hsome) ∨
          Pending func clock r.isCancelled (clock r.inner).2 (Nat.find hsome) := by
        by_contra hnot
        obtain ⟨hearly, hfree⟩ := not_or.1 hnot
        exact hlast ⟨hfault, Int.not_le.1 hearly, hfree⟩
      exact .inl ⟨rfl, hstop, invoke_of_none rfl hn hbefore hfault hstop⟩
    | some e => exact .inr ⟨e, _, rfl, (pending_iff hbefore).symm, invoke_of_some rfl hn hbefore hfault⟩

/-! ## A late cancellation -/

namespace Errand

/-- A function of which the first call raises and the fifth one cancels; the state counts the calls. -/
def act (calls : Nat) : Call Nat where
  inner := calls + 1
  cancels := calls == 4
  fault := if calls = 0 then some (.raised .queryTimeout "query timed out") else none

/-- A clock that stands still. -/
def still (calls : Nat) : Int × Nat := (0, calls)

/-- The repeater after the first of its runs, which raised. -/
def used : Repeater Nat := ⟨1, true⟩

end Errand

/-- The theorem applies to a run after one that raised: a cancellation before that one ends it with its first
call, although the time is not up and no call cancels before the fourth one. -/
theorem Used.run_ends_errand : Used Errand.act Errand.still false true Errand.used ∧
    invoke Errand.act Errand.still 60 100 Errand.used = .ok ⟨1, 0⟩ ⟨2, false⟩ ∧
    invoke Errand.act Errand.still 60 100 ⟨1, false⟩ = .ok ⟨4, 0⟩ ⟨5, false⟩ := by
  have hcancelled : Used Errand.act Errand.still true false ⟨0, true⟩ := .cancel (.new 0) rfl
  have hraised : invoke Errand.act Errand.still 60 100 ⟨0, true⟩ =
      .error (.raised .queryTimeout "query timed out") Errand.used := rfl
  have hused : Used Errand.act Errand.still false true Errand.used := hcancelled.raises hraised
  obtain ⟨start, s, hstart, ⟨n, -, hbefore, hend⟩ | ⟨hgo, -⟩⟩ := hused.run_ends 60 100
  · cases hstart
    obtain rfl : n = 0 := by
      by_contra hn
      exact (hbefore 0 (Nat.pos_of_ne_zero hn)).free (.inl rfl)
    rcases hend with ⟨-, -, hrun⟩ | ⟨e, kept, hfault, -⟩
    · exact ⟨hused, hrun, rfl⟩
    · cases hfault
  · exact absurd (.inl rfl) (hgo 0 (by decide)).free

end GameSearch.Repeater
