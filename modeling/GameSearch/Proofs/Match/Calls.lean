import GameSearch.Proofs.Control
import GameSearch.Proofs.Match.Transcript

/-!
# Calls of a match, one by one

What each call of a transcript is made for and how it is answered, given the calls before it.  The
relations of a transcript are taken apart by induction here, round by round.
-/

namespace GameSearch.Match

variable {α : Type} {m : Match α} {earlier calls calls' before : List Exchange} {x : Exchange} {ply : Nat}
  {s : State} {P Q : List Exchange → Exchange → Prop}

/-- Something holds of each of some calls and those before it. -/
def Each (P : List Exchange → Exchange → Prop) : (earlier calls : List Exchange) → Prop
  | _, [] => True
  | earlier, x :: calls => P earlier x ∧ Each P (earlier ++ [x]) calls

lemma each_append : Each P earlier (calls ++ calls') ↔
    Each P earlier calls ∧ Each P (earlier ++ calls) calls' := by
  induction calls generalizing earlier with
  | nil => simp [Each]
  | cons x calls ih => simp [Each, ih, and_assoc]

lemma Each.mono (h : Each P earlier calls) (himp : ∀ before x, P before x → Q before x) :
    Each Q earlier calls := by
  induction calls generalizing earlier with
  | nil => trivial
  | cons x calls ih => exact ⟨himp _ _ h.1, ih h.2⟩

lemma each_iff : Each P earlier calls ↔
    ∀ before x later, calls = before ++ x :: later → P (earlier ++ before) x := by
  induction calls generalizing earlier with
  | nil => simp [Each]
  | cons x calls ih =>
    rw [Each, ih]
    constructor
    · rintro ⟨hx, hcalls⟩ before y later heq
      cases before with
      | nil =>
        obtain ⟨rfl, -⟩ := List.cons.inj heq
        rwa [List.append_nil]
      | cons z before =>
        obtain ⟨rfl, htail⟩ := List.cons.inj heq
        rw [List.append_cons]
        exact hcalls before y later htail
    · intro h
      refine ⟨by simpa using h [] x calls rfl, fun before y later heq => ?_⟩
      rw [← List.append_cons]
      exact h (x :: before) y later (by rw [heq, List.cons_append])

/-! ## Answers -/

variable {answer : Except Fault Move} {result result' : Except String Move} {ply' : Nat} {s' : State}

lemma Answers.asks (h : Answers m earlier ply s x result) : ∃ answer, Asks m earlier ply s x answer := by
  cases h with
  | raised asks => exact ⟨_, asks⟩
  | late asks => exact ⟨_, asks⟩
  | illegal asks => exact ⟨_, asks⟩
  | move asks => exact ⟨_, asks⟩

lemma Asks.play? {move : Move} (h : Asks m earlier ply s x (.ok move)) : x.play? = some ⟨x.role, move⟩ := by
  obtain ⟨_, _, _, _, hcall⟩ := h
  rw [Exchange.play?, hcall]

/-- A call says at which ply it was made and what came of it. -/
lemma Asks.inj {answer' : Except Fault Move} (h : Asks m earlier ply s x answer)
    (h' : Asks m earlier ply' s' x answer') : ply = ply' ∧ answer = answer' := by
  obtain ⟨_, _, _, _, hcall⟩ := h
  obtain ⟨_, _, _, _, hcall'⟩ := h'
  rw [hcall, Call.move.injEq] at hcall'
  exact ⟨by exact_mod_cast hcall'.1, hcall'.2.2.2⟩

/-- A call that is answered with a legal move in time is not one that fails. -/
lemma Answers.not_error {move : Move} {reason : String} (h : Answers m earlier ply s x (.ok move)) :
    ¬Answers m earlier ply s x (.error reason) := by
  intro h'
  cases h with
  | move asks inTime legal =>
    cases h' with
    | raised asks' => cases (asks.inj asks').2
    | late _ late => exact inTime late
    | illegal asks' _ illegal =>
      cases (asks.inj asks').2
      cases legal.symm.trans illegal

lemma Prepares.call {failure : Option String} (h : Prepares m x failure) : ∃ answer,
    x.call = .prepare x.role m.ruleset m.startClock m.playClock answer := by
  cases h with
  | raised call => exact ⟨_, call⟩
  | late call => exact ⟨_, call⟩
  | ready call => exact ⟨_, call⟩

/-- A call for a move that is answered with a legal one in time. -/
def Answered (m : Match α) (ply : Nat) (s : State) (earlier : List Exchange) (x : Exchange) : Prop :=
  ∃ move, Answers m earlier ply s x (.ok move)

/-- A call for a move. -/
def Asked (m : Match α) (ply : Nat) (s : State) (earlier : List Exchange) (x : Exchange) : Prop :=
  ∃ answer, Asks m earlier ply s x answer

lemma Answered.asked (h : Answered m ply s earlier x) : Asked m ply s earlier x := by
  obtain ⟨move, h⟩ := h
  exact h.asks

/-! ## Preparations -/

namespace Preparations

variable {roles : List Role} {failure : Option (Role × String)}

/-- Each agent is prepared at most once, in the order of the roles. -/
lemma roles_prefix (h : Preparations m roles calls failure) : calls.map Exchange.role <+: roles := by
  induction h with
  | done => exact List.prefix_rfl
  | failed => exact ⟨_, rfl⟩
  | next _ _ ih => exact List.cons_prefix_cons.2 ⟨rfl, ih⟩

lemma call (h : Preparations m roles calls failure) (hx : x ∈ calls) : ∃ answer,
    x.call = .prepare x.role m.ruleset m.startClock m.playClock answer := by
  induction h with
  | done => cases hx
  | failed fails =>
    obtain rfl := List.mem_singleton.1 hx
    exact fails.call
  | next ready _ ih =>
    rcases List.mem_cons.1 hx with rfl | hx
    · exact ready.call
    · exact ih hx

/-- If no agent fails to respond, all of them are prepared. -/
lemma of_none (h : Preparations m roles calls none) :
    calls.map Exchange.role = roles ∧ ∀ x ∈ calls, Prepares m x none := by
  generalize hfailure : none = failure at h
  induction h with
  | done => exact ⟨rfl, by simp⟩
  | failed => cases hfailure
  | next ready _ ih =>
    obtain ⟨hroles, hready⟩ := ih hfailure
    exact ⟨by rw [List.map_cons, hroles], List.forall_mem_cons.2 ⟨ready, hready⟩⟩

/-- The agent that fails to respond is the last one that is prepared. -/
lemma of_some {role : Role} {reason : String} (h : Preparations m roles calls (some (role, reason))) :
    ∃ before x, calls = before ++ [x] ∧ x.role = role ∧ Prepares m x (some reason) ∧
      ∀ y ∈ before, Prepares m y none := by
  generalize hfailure : some (role, reason) = failure at h
  induction h with
  | done => cases hfailure
  | @failed roles x reason' fails =>
    cases hfailure
    exact ⟨[], x, rfl, rfl, fails, by simp⟩
  | @next roles x calls failure ready _ ih =>
    obtain ⟨before, y, rfl, hrole, hfails, hready⟩ := ih hfailure
    exact ⟨x :: before, y, rfl, hrole, hfails, List.forall_mem_cons.2 ⟨ready, hready⟩⟩

end Preparations

/-! ## Rounds -/

namespace Round

variable {roles : List Role} {answer : Except (Role × String) (List Play)} {plays : List Play}

/-- Each role is asked at most once, in the order of the roles. -/
lemma roles_prefix (h : Round m ply s earlier roles calls answer) : calls.map Exchange.role <+: roles := by
  induction h with
  | done => exact List.prefix_rfl
  | failed => exact ⟨_, rfl⟩
  | next _ _ ih => exact List.cons_prefix_cons.2 ⟨rfl, ih⟩

lemma asked (h : Round m ply s earlier roles calls answer) : Each (Asked m ply s) earlier calls := by
  induction h with
  | done => trivial
  | failed fails => exact ⟨fails.asks, trivial⟩
  | next moves _ ih => exact ⟨moves.asks, ih⟩

/-- In a round that succeeds each role is asked, and answers with a legal move in time. -/
lemma of_ok (h : Round m ply s earlier roles calls (.ok plays)) :
    calls.map Exchange.role = roles ∧ plays = calls.filterMap Exchange.play? ∧
      Each (Answered m ply s) earlier calls ∧
      List.Forall₂ (fun role p => p.role = role ∧ m.game.isLegal? s role p.move = .ok true) roles plays := by
  generalize hanswer : Except.ok plays = answer at h
  induction h generalizing plays with
  | done =>
    cases hanswer
    exact ⟨rfl, rfl, trivial, .nil⟩
  | failed => cases hanswer
  | @next earlier roles x move calls answer moves _ ih =>
    cases answer with
    | error failure => cases hanswer
    | ok others =>
      cases hanswer
      obtain ⟨hroles, rfl, heach, hlegal⟩ := ih rfl
      cases moves with
      | move asks inTime legal =>
        refine ⟨by rw [List.map_cons, hroles], ?_, ⟨⟨move, .move asks inTime legal⟩, heach⟩,
          .cons ⟨rfl, legal⟩ hlegal⟩
        rw [List.filterMap_cons_some asks.play?]

/-- In a round that fails the last role asked is the one that does not respond. -/
lemma of_error {role : Role} {reason : String}
    (h : Round m ply s earlier roles calls (.error (role, reason))) :
    ∃ before x, calls = before ++ [x] ∧ x.role = role ∧ Each (Answered m ply s) earlier before ∧
      Answers m (earlier ++ before) ply s x (.error reason) := by
  generalize hanswer : Except.error (role, reason) = answer at h
  induction h with
  | done => cases hanswer
  | @failed earlier roles x reason' fails =>
    cases hanswer
    exact ⟨[], x, rfl, rfl, trivial, by rwa [List.append_nil]⟩
  | @next earlier roles x move calls answer moves _ ih =>
    cases answer with
    | ok plays => cases hanswer
    | error failure =>
      cases hanswer
      obtain ⟨before, y, rfl, hrole, heach, hfails⟩ := ih rfl
      refine ⟨x :: before, y, rfl, hrole, ⟨⟨move, moves⟩, heach⟩, ?_⟩
      rwa [List.append_cons]

end Round

/-! ## Plays -/

/-- Something holds of a call at one of the plies from some ply on, in the state of that ply. -/
def AtPly (Q : Nat → State → List Exchange → Exchange → Prop) (ply : Nat) (states : List State)
    (earlier : List Exchange) (x : Exchange) : Prop :=
  ∃ k s, states[k]? = some s ∧ Q (ply + k) s earlier x

variable {Q : Nat → State → List Exchange → Exchange → Prop} {states : List State}

lemma atPly_zero (h : Q ply s earlier x) : AtPly Q ply (s :: states) earlier x := ⟨0, s, rfl, h⟩

lemma AtPly.later (h : AtPly Q (ply + 1) states earlier x) : AtPly Q ply (s :: states) earlier x := by
  obtain ⟨k, a, ha, hQ⟩ := h
  refine ⟨k + 1, a, by rwa [List.getElem?_cons_succ], ?_⟩
  rwa [← Nat.add_assoc, Nat.add_right_comm]

namespace Plays

variable {rounds : List (List Exchange)} {failure : Option (Role × String)}

/-- In each round the roles in control of a state that is not terminal are asked. -/
lemma round (h : Plays m earlier ply s rounds states failure) {k : Nat} {round : List Exchange}
    (hround : rounds[k]? = some round) : ∃ a control answer, (s :: states)[k]? = some a ∧
      m.game.isTerminal a = .ok false ∧ a.control? = .ok control ∧
      Round m (ply + k) a (earlier ++ (rounds.take k).flatten) control.toList round answer := by
  induction h generalizing k with
  | ended => simp at hround
  | failed ongoing control_eq fails =>
    cases k with
    | zero =>
      cases hround
      exact ⟨_, _, _, rfl, ongoing, control_eq, by simpa using fails⟩
    | succ k => simp at hround
  | @next earlier ply s next control first plays rounds states failure ongoing control_eq moves _ _ ih =>
    cases k with
    | zero =>
      cases hround
      exact ⟨_, _, _, rfl, ongoing, control_eq, by simpa using moves⟩
    | succ k =>
      obtain ⟨a, control', answer, ha, hterminal, hcontrol, hrest⟩ := ih hround
      rw [Nat.add_right_comm, Nat.add_assoc, List.append_assoc] at hrest
      exact ⟨a, control', answer, by rwa [List.getElem?_cons_succ], hterminal, hcontrol, hrest⟩

/-- A state is followed by the one after the moves of its round. -/
lemma step (h : Plays m earlier ply s rounds states failure) {k : Nat} {a next : State}
    (ha : (s :: states)[k]? = some a) (hnext : states[k]? = some next) :
    ∃ control round before plays, m.game.isTerminal a = .ok false ∧ a.control? = .ok control ∧
      rounds[k]? = some round ∧ Round m (ply + k) a before control.toList round (.ok plays) ∧
      m.game.next? a (.ofList plays) = .ok next := by
  induction h generalizing k with
  | ended => simp at hnext
  | failed => simp at hnext
  | @next earlier ply s next control first plays rounds states failure ongoing control_eq moves next_eq _ ih =>
    cases k with
    | zero =>
      cases ha
      cases hnext
      exact ⟨control, first, earlier, plays, ongoing, control_eq, rfl, moves, next_eq⟩
    | succ k =>
      obtain ⟨control', round, before, plays', hterminal, hcontrol, hround, hrest⟩ := ih ha hnext
      rw [Nat.add_right_comm, Nat.add_assoc] at hrest
      exact ⟨control', round, before, plays', hterminal, hcontrol, hround, hrest⟩

/-- Every call is for a move at the ply of its state. -/
lemma asked (h : Plays m earlier ply s rounds states failure) :
    Each (AtPly (Asked m) ply (s :: states)) earlier rounds.flatten := by
  induction h with
  | ended => trivial
  | failed _ _ fails =>
    rw [List.flatten_singleton]
    exact fails.asked.mono fun _ _ hx => atPly_zero hx
  | next _ _ moves _ _ ih =>
    rw [List.flatten_cons, each_append]
    exact ⟨moves.asked.mono fun _ _ hx => atPly_zero hx, ih.mono fun _ _ hx => hx.later⟩

/-- A play that does not fail ends in a terminal state, and every call is answered. -/
lemma of_none (h : Plays m earlier ply s rounds states none) :
    (∃ last, (s :: states).getLast? = some last ∧ m.game.isTerminal last = .ok true) ∧
      Each (AtPly (Answered m) ply (s :: states)) earlier rounds.flatten := by
  generalize hfailure : none = failure at h
  induction h with
  | @ended earlier ply s terminal => exact ⟨⟨s, rfl, terminal⟩, trivial⟩
  | failed => cases hfailure
  | next _ _ moves _ _ ih =>
    obtain ⟨⟨last, hlast, hterminal⟩, heach⟩ := ih hfailure
    refine ⟨⟨last, by rwa [List.getLast?_cons_cons], hterminal⟩, ?_⟩
    rw [List.flatten_cons, each_append]
    exact ⟨moves.of_ok.2.2.1.mono fun _ _ hx => atPly_zero hx, heach.mono fun _ _ hx => hx.later⟩

/-- A play that fails does so with the last call, the only one that is not answered. -/
lemma of_some {role : Role} {reason : String}
    (h : Plays m earlier ply s rounds states (some (role, reason))) :
    ∃ before x, rounds.flatten = before ++ [x] ∧ x.role = role ∧
      Each (AtPly (Answered m) ply (s :: states)) earlier before ∧
      AtPly (fun k a e y => Answers m e k a y (.error reason)) ply (s :: states) (earlier ++ before) x := by
  generalize hfailure : some (role, reason) = failure at h
  induction h with
  | ended => cases hfailure
  | failed _ _ fails =>
    cases hfailure
    obtain ⟨before, x, rfl, hrole, heach, hfails⟩ := fails.of_error
    exact ⟨before, x, List.flatten_singleton, hrole, heach.mono fun _ _ hx => atPly_zero hx,
      atPly_zero hfails⟩
  | @next earlier ply s next control first plays rounds states failure _ _ moves _ _ ih =>
    obtain ⟨before, x, hbefore, hrole, heach, hfails⟩ := ih hfailure
    refine ⟨first ++ before, x, by rw [List.flatten_cons, hbefore, List.append_assoc], hrole, ?_, ?_⟩
    · rw [each_append]
      exact ⟨moves.of_ok.2.2.1.mono fun _ _ hx => atPly_zero hx, heach.mono fun _ _ hx => hx.later⟩
    · rw [← List.append_assoc]
      exact hfails.later

end Plays

end GameSearch.Match
