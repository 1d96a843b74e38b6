import Mathlib.Data.List.Lex
import GameSearch.Proofs.Belief.LastStates

/-!
# What is listed as a development

`Game.Conforms` says of a list of steps, ply by ply, that it is a play in agreement with some evidence.
The main result is that the developments of the evidence are just these lists, each of them once and
in increasing order, and that a visitor who has seen enough at some call has been shown the first of
them up to that call and no other.
-/

namespace GameSearch

/-- The turns of a development, ply by ply. -/
def Development.turns (d : Development) : List Turn := d.filterMap Step.turn

/-- One development comes before another one: by the state that it starts in, and if that is the same,
by the first turn in which they differ. -/
def Development.Precedes (d d' : Development) : Prop :=
  (∃ s s', d.head?.map Step.state = some s ∧ d'.head?.map Step.state = some s' ∧ compare s s' = .lt) ∨
    d.head?.map Step.state = d'.head?.map Step.state ∧
      List.Lex (fun t t' => compare t t' = .lt) d.turns d'.turns

lemma Development.Precedes.ne {d d' : Development} (h : d.Precedes d') : d ≠ d' := by
  rintro rfl
  rcases h with ⟨s, s', hs, hs', hlt⟩ | ⟨-, hlex⟩
  · rw [hs, Option.some.injEq] at hs'
    subst hs'
    simp at hlt
  · refine List.Lex.to_ne (hlex.imp ?_) rfl
    rintro t _ hlt rfl
    simp at hlt

namespace Turn

variable {turn known : Turn}

lemma includes_iff : turn.includes known = true ↔ ∀ p ∈ known.plays, turn.find? p.role = some p.move := by
  simp [includes, contains]

end Turn

namespace Game

/-- A state in which a development of some evidence may start: one of those that are possible at the
first ply, or the initial state if nothing is known of them. -/
def Begins (game : Game) (e : Evidence) (s : State) : Prop :=
  match e.states[e.offset]? with
  | some possible => s ∈ possible
  | none => s = game.start

/-- A play from a ply on that agrees with some evidence. -/
structure Follows (game : Game) (e : Evidence) (ply : Int) (d : Development) : Prop where
  /-- Each state comes from the one before it by the turn that is recorded there. -/
  next : ∀ (i : Nat) step after, d[i]? = some step → d[i + 1]? = some after →
    ∃ turn, step.turn = some turn ∧ (turn, after.state) ∈ game.transitions step.state
  last : ∀ step, d.getLast? = some step → step.turn = none
  states : ∀ (i : Nat) step possible, d[i]? = some step → e.states[ply + i]? = some possible →
    step.state ∈ possible
  views : ∀ (i : Nat) step known role view, d[i]? = some step → e.views[ply + i]? = some known →
    known[role]? = some view → game.viewOf step.state role = view
  /-- A turn has all the plays that are known of it. -/
  turns : ∀ (i : Nat) step turn known, d[i]? = some step → step.turn = some turn →
    e.turns[ply + i]? = some known → ∀ p ∈ known.plays, turn.find? p.role = some p.move

/-- A play from the first to the last ply of some evidence that agrees with all of it. -/
structure Conforms (game : Game) (e : Evidence) (d : Development) : Prop where
  length : (d.length : Int) = e.horizon - e.offset + 1
  first : ∃ step, d.head? = some step ∧ game.Begins e step.state
  follows : game.Follows e e.offset d

variable {game : Game} {e : Evidence} {ply : Int} {s : State} {count : Nat} {earlier : List Step}
  {d rest : Development} {x y : Step}

/-! ## Plays step by step -/

lemma includes_known_iff {turn : Turn} : turn.includes (e.turns.getD ply ∅) = true ↔
    ∀ known, e.turns[ply]? = some known → ∀ p ∈ known.plays, turn.find? p.role = some p.move := by
  rw [Std.ExtTreeMap.getD_eq_getD_getElem?]
  cases e.turns[ply]? with
  | none => simp [Turn.includes_empty]
  | some known => simp [Turn.includes_iff]

lemma follows_singleton :
    game.Follows e ply [x] ↔ game.agrees e ply x.state = true ∧ x.turn = none := by
  have hsame : ∀ (i : Nat) step, [x][i]? = some step → i = 0 ∧ step = x := by
    intro i step h
    cases i with
    | zero => exact ⟨rfl, by simpa [eq_comm] using h⟩
    | succ i => simp at h
  rw [agrees_iff]
  constructor
  · intro h
    refine ⟨⟨fun possible hp => h.states 0 x possible rfl (by simpa using hp), fun known hk role view hv =>
      h.views 0 x known role view rfl (by simpa using hk) hv⟩, h.last x rfl⟩
  · rintro ⟨⟨hstates, hviews⟩, hturn⟩
    refine ⟨fun i step after _ hafter => by simp at hafter, fun step hstep => ?_,
      fun i step possible hstep hp => ?_, fun i step known role view hstep hk hv => ?_,
      fun i step turn known hstep hturn' => ?_⟩
    · simp only [List.getLast?_singleton, Option.some.injEq] at hstep
      exact hstep ▸ hturn
    · obtain ⟨rfl, rfl⟩ := hsame i step hstep
      exact hstates possible (by simpa using hp)
    · obtain ⟨rfl, rfl⟩ := hsame i step hstep
      exact hviews known (by simpa using hk) role view hv
    · obtain ⟨rfl, rfl⟩ := hsame i step hstep
      rw [hturn] at hturn'
      cases hturn'

lemma follows_cons_cons : game.Follows e ply (x :: y :: rest) ↔ game.agrees e ply x.state = true ∧
    (∃ turn, x.turn = some turn ∧ (turn, y.state) ∈ game.transitions x.state ∧
      turn.includes (e.turns.getD ply ∅) = true) ∧ game.Follows e (ply + 1) (y :: rest) := by
  -- What is said of index 0 concerns `x`, and what is said of `i + 1` is said of `i` of the rest.
  have hply : ∀ i : Nat, ply + 1 + i = ply + (i + 1 : Nat) := fun i => by push_cast; ring
  simp only [agrees_iff, includes_known_iff]
  constructor
  · intro h
    obtain ⟨turn, hturn, hnext⟩ := h.next 0 x y rfl rfl
    refine ⟨⟨fun possible hp => h.states 0 x possible rfl (by simpa using hp), fun known hk role view hv =>
      h.views 0 x known role view rfl (by simpa using hk) hv⟩, ⟨turn, hturn, hnext, fun known hk =>
      h.turns 0 x turn known rfl hturn (by simpa using hk)⟩, ?_⟩
    refine ⟨fun i step after hstep hafter => h.next (i + 1) step after hstep hafter,
      fun step hstep => h.last step (by rwa [List.getLast?_cons_cons]),
      fun i step possible hstep hp => h.states (i + 1) step possible hstep (hply i ▸ hp),
      fun i step known role view hstep hk => h.views (i + 1) step known role view hstep (hply i ▸ hk),
      fun i step turn known hstep hturn hk =>
        h.turns (i + 1) step turn known hstep hturn (hply i ▸ hk)⟩
  · rintro ⟨⟨hstates, hviews⟩, ⟨turn, hturn, hnext, hknown⟩, h⟩
    refine ⟨fun i step after hstep hafter => ?_, fun step hstep => ?_,
      fun i step possible hstep hp => ?_, fun i step known role view hstep hk hv => ?_,
      fun i step turn' known hstep hturn' hk => ?_⟩
    · cases i with
      | zero =>
        cases hstep
        cases hafter
        exact ⟨turn, hturn, hnext⟩
      | succ i => exact h.next i step after hstep hafter
    · exact h.last step (by rwa [List.getLast?_cons_cons] at hstep)
    · cases i with
      | zero =>
        cases hstep
        exact hstates possible (by simpa using hp)
      | succ i => exact h.states i step possible hstep (hply i ▸ hp)
    · cases i with
      | zero =>
        cases hstep
        exact hviews known (by simpa using hk) role view hv
      | succ i => exact h.views i step known role view hstep (hply i ▸ hk) hv
    · cases i with
      | zero =>
        cases hstep
        rw [hturn, Option.some.injEq] at hturn'
        subst hturn'
        exact hknown known (by simpa using hk)
      | succ i => exact h.turns i step turn' known hstep hturn' (hply i ▸ hk)

/-- The developments that go on from a state are the plays that do so. -/
theorem mem_developmentsFrom : d ∈ game.developmentsFrom e count ply s earlier ↔
    ∃ x rest, d = earlier.reverse ++ x :: rest ∧ rest.length = count ∧ x.state = s ∧
      game.Follows e ply (x :: rest) := by
  induction count generalizing ply s earlier with
  | zero =>
    rw [developmentsFrom]
    constructor
    · intro h
      split at h
      · rename_i hagrees
        exact ⟨⟨s, none⟩, [], by simpa using h, rfl, rfl, follows_singleton.2 ⟨hagrees, rfl⟩⟩
      · cases h
    · rintro ⟨⟨_, turn⟩, rest, rfl, hlength, rfl, h⟩
      cases List.length_eq_zero_iff.1 hlength
      obtain ⟨hagrees, rfl⟩ := follows_singleton.1 h
      rw [if_pos hagrees]
      simp
  | succ count ih =>
    rw [developmentsFrom]
    constructor
    · intro h
      split at h
      · rename_i hagrees
        obtain ⟨step, hstep, hd⟩ := List.mem_flatMap.1 h
        obtain ⟨hstep, hincludes⟩ := List.mem_filter.1 hstep
        obtain ⟨y, rest, rfl, hlength, hy, hfollows⟩ := ih.1 hd
        refine ⟨⟨s, some step.1⟩, y :: rest, by simp, by simp [hlength], rfl, follows_cons_cons.2 ⟨hagrees,
          ⟨step.1, rfl, ?_, hincludes⟩, hfollows⟩⟩
        rw [hy]
        exact hstep
      · cases h
    · rintro ⟨⟨_, turn⟩, rest, rfl, hlength, rfl, h⟩
      obtain ⟨y, rest, rfl⟩ := List.exists_cons_of_length_eq_add_one hlength
      obtain ⟨hagrees, ⟨turn, rfl, hnext, hincludes⟩, hfollows⟩ := follows_cons_cons.1 h
      rw [if_pos hagrees]
      refine List.mem_flatMap.2 ⟨(turn, y.state), List.mem_filter.2 ⟨hnext, hincludes⟩, ih.2 ?_⟩
      exact ⟨y, rest, by simp, by simpa using hlength, rfl, hfollows⟩

/-! ## The order of the list -/

/-- The developments that go on from a state come in the order of their turns. -/
lemma pairwise_developmentsFrom {states : State → Prop} (h : game.AnswersOn states)
    (hincreasing : ∀ s, states s → (game.transitions s).Pairwise fun a b => compare a.1 b.1 = .lt)
    (hs : states s) : (game.developmentsFrom e count ply s earlier).Pairwise fun d d' =>
      List.Lex (fun t t' => compare t t' = .lt) d.turns d'.turns := by
  induction count generalizing ply s earlier with
  | zero =>
    rw [developmentsFrom]
    split
    · exact List.pairwise_singleton _ _
    · exact .nil
  | succ count ih =>
    rw [developmentsFrom]
    split
    · refine List.pairwise_flatMap.2 ⟨fun step hstep => ?_, ?_⟩
      · exact ih (h.closed s hs step (List.mem_filter.1 hstep).1)
      · refine ((hincreasing s hs).filter _).imp fun {a b} hlt d hd d' hd' => ?_
        obtain ⟨x, rest, rfl, -, -, -⟩ := mem_developmentsFrom.1 hd
        obtain ⟨x', rest', rfl, -, -, -⟩ := mem_developmentsFrom.1 hd'
        simp only [Development.turns, List.reverse_cons, List.append_assoc, List.filterMap_append]
        exact List.Lex.append_left _ (List.Lex.rel (r := fun t t' => compare t t' = .lt) hlt) _
    · exact .nil

/-! ## Where a visitor stops -/

/-- The visitor that does something with each development and has seen enough at a call, before which
there are `calls` others; the calls are counted. -/
def stopAfter {β : Type} (calls : Nat) (f : Development → β → β) :
    Development → Nat × β → ForInStep (Nat × β) := fun d (made, b) =>
  if made = calls then .done (made + 1, f d b) else .yield (made + 1, f d b)

lemma visitEach_stopAfter {β : Type} {calls made : Nat} (hmade : made ≤ calls) (f : Development → β → β)
    (ds : List Development) (b : β) : (visitEach (stopAfter calls f) ds (made, b)).value =
      (min (calls + 1) (made + ds.length),
        (ds.take (calls + 1 - made)).foldl (fun b d => f d b) b) := by
  induction ds generalizing made b with
  | nil => simp [visitEach, ForInStep.value]; omega
  | cons d ds ih =>
    by_cases hstop : made = calls
    · subst hstop
      simp [visitEach, stopAfter, ForInStep.value]
    · have htake : calls + 1 - made = calls + 1 - (made + 1) + 1 := by omega
      simp only [visitEach, stopAfter, if_neg hstop]
      refine (ih (by omega) (f d b)).trans ?_
      rw [htake, List.take_succ_cons, List.foldl_cons, List.length_cons]
      congr 1
      omega

/-! ## The list of developments -/

/-- The developments start, in increasing order, in the states in which they may start. -/
lemma origins?_begins (game : Game)
    (hoffset : (∃ possible, e.states[e.offset]? = some possible) ∨ e.offset = 0) :
    ∃ origins, game.origins? e = .ok origins ∧ (∀ s, s ∈ origins ↔ game.Begins e s) ∧
      origins.Pairwise fun s t => compare s t = .lt := by
  unfold origins? Begins
  cases hstates : e.states[e.offset]? with
  | some possible =>
    exact ⟨possible.toList, rfl, fun s => Std.ExtTreeSet.mem_toList, Std.ExtTreeSet.ordered_toList⟩
  | none =>
    have hzero : e.offset = 0 := by
      rcases hoffset with ⟨possible, hsome⟩ | hzero
      · rw [hstates] at hsome
        cases hsome
      · exact hzero
    exact ⟨[game.start], if_pos hzero, fun s => List.mem_singleton, List.pairwise_singleton _ _⟩

/-- The developments of some evidence are the plays that agree with it, each of them once and in
increasing order; and a visitor who has seen enough at some call is shown the first of them only. -/
theorem AnswersOn.lists_developments {states : State → Prop} (h : game.AnswersOn states)
    (hincreasing : ∀ s, states s → (game.transitions s).Pairwise fun a b => compare a.1 b.1 = .lt)
    (hbegins : ∀ s, game.Begins e s → states s)
    (hoffset : (∃ possible, e.states[e.offset]? = some possible) ∨ e.offset = 0) :
    ∃ ds, game.developments? e = .ok ds ∧ (∀ d, d ∈ ds ↔ game.Conforms e d) ∧ ds.Nodup ∧
      ds.Pairwise Development.Precedes ∧
      ∀ (calls : Nat) {β : Type} (f : Development → β → β) (b : β),
        game.foldDevelopments e (stopAfter calls f) (0, b) =
          .ok (min (calls + 1) ds.length, (ds.take (calls + 1)).foldl (fun b d => f d b) b) := by
  obtain ⟨origins, horigins, hmem, hsorted⟩ := origins?_begins game hoffset
  have hstates : ∀ s ∈ origins, states s := fun s hs => hbegins s ((hmem s).1 hs)
  let u : Upkeep := ⟨game, states, h, True, False⟩
  have hordered : (Arena.developments u e origins).Pairwise Development.Precedes := by
    have hhead : ∀ s, ∀ d ∈ game.developmentsFrom e (e.horizon - e.offset).toNat e.offset s [],
        d.head?.map Step.state = some s := by
      intro s d hd
      obtain ⟨x, rest, rfl, -, rfl, -⟩ := mem_developmentsFrom.1 hd
      rfl
    refine List.pairwise_flatMap.2 ⟨fun s hs => ?_, ?_⟩
    · refine (pairwise_developmentsFrom h hincreasing (hstates s hs)).imp_of_mem ?_
      intro d d' hd hd' hlex
      exact .inr ⟨(hhead s d hd).trans (hhead s d' hd').symm, hlex⟩
    · exact hsorted.imp fun {s t} hlt d hd d' hd' => .inl ⟨s, t, hhead s d hd, hhead t d' hd', hlt⟩
  refine ⟨Arena.developments u e origins, Arena.developments?_eq (u := u) horigins hstates, fun d => ?_,
    hordered.imp Development.Precedes.ne, hordered, fun calls β f b => ?_⟩
  · have hrange := e.offset_le_horizon
    simp only [Arena.developments, List.mem_flatMap, hmem]
    constructor
    · rintro ⟨s, hs, hd⟩
      obtain ⟨x, rest, rfl, hlength, rfl, hfollows⟩ := mem_developmentsFrom.1 hd
      refine ⟨?_, ⟨x, rfl, hs⟩, hfollows⟩
      simp only [List.reverse_nil, List.nil_append, List.length_cons, hlength]
      omega
    · rintro ⟨hlength, ⟨x, hx, hs⟩, hfollows⟩
      obtain ⟨rest, rfl⟩ := List.head?_eq_some_iff.1 hx
      refine ⟨x.state, hs, mem_developmentsFrom.2 ⟨x, rest, rfl, ?_, rfl, hfollows⟩⟩
      rw [List.length_cons] at hlength
      omega
  · refine (h.foldDevelopments horigins hstates _ _).trans ?_
    rw [visitEach_stopAfter (Nat.zero_le calls), Nat.zero_add]
    rfl

end Game

/-! ## Two tosses of a coin -/

namespace Coin

/-- The one who sees how the last toss turned out. -/
def watcher : Role := .symbol "w"

def heads : Move := .symbol "h"

def tails : Move := .symbol "t"

/-- The coin has not been tossed yet. -/
def fresh : State := .ofList [controlOf chance]

/-- The coin has been tossed once. -/
def once (toss : Move) : State := .ofList [controlOf chance, toss]

/-- The coin has been tossed twice. -/
def twice (toss : Move) : State := .ofList [toss]

def isOpen (s : State) : Bool := s = fresh || s = once heads || s = once tails

/-- A coin is tossed twice, and only the last toss can be seen. -/
def game : Game where
  roles := [chance, watcher]
  start := fresh
  sees s := .ok ((∅ : ByRole View).insert watcher (if isOpen s then ∅ else s))
  legal _ := .ok ((∅ : ByRole (List Move)).insert chance [heads, tails])
  goals _ := .ok ∅
  isTerminal s := .ok (!isOpen s)
  play s turn :=
    let toss := if turn.contains chance heads then heads else tails
    .ok (if s = fresh then once toss else twice toss)

/-- The last toss turned out heads. -/
def evidence : Evidence := ((∅ : Evidence).withStates 0 {fresh}).withView 2 watcher (twice heads)

lemma successors?_fresh : game.successors? fresh =
    .ok [(.single chance heads, once heads), (.single chance tails, once tails)] := by
  rfl

lemma successors?_once {toss : Move} (h : toss = heads ∨ toss = tails) : game.successors? (once toss) =
    .ok [(.single chance heads, twice heads), (.single chance tails, twice tails)] := by
  rcases h with rfl | rfl <;> rfl

lemma successors?_of_over {s : State} (h : isOpen s = false) : game.successors? s = .ok [] :=
  Game.successors?_of_isTerminal (by simp [game, h])

lemma isOpen_cases {s : State} (h : isOpen s = true) :
    s = fresh ∨ s = once heads ∨ s = once tails := by
  simpa [isOpen, or_assoc] using h

/-- The turns of a state are the two tosses, if there are any. -/
lemma successors?_cases (s : State) : game.successors? s = .ok [] ∨ ∃ t t',
    game.successors? s = .ok [(.single chance heads, t), (.single chance tails, t')] := by
  cases hopen : isOpen s with
  | false => exact .inl (successors?_of_over hopen)
  | true =>
    rcases isOpen_cases hopen with rfl | rfl | rfl
    · exact .inr ⟨_, _, successors?_fresh⟩
    · exact .inr ⟨_, _, successors?_once (.inl rfl)⟩
    · exact .inr ⟨_, _, successors?_once (.inr rfl)⟩

lemma answers : game.AnswersOn fun _ => True where
  sees _ _ := ⟨_, rfl⟩
  legal _ _ := ⟨_, rfl⟩
  goals _ _ := ⟨_, rfl⟩
  isTerminal _ _ := ⟨_, rfl⟩
  successors s _ := by
    rcases successors?_cases s with h | ⟨t, t', h⟩
    · exact ⟨_, h⟩
    · exact ⟨_, h⟩
  closed _ _ _ _ := trivial

lemma increasing (s : State) : (game.transitions s).Pairwise fun a b => compare a.1 b.1 = .lt := by
  rcases successors?_cases s with h | ⟨t, t', h⟩
  · rw [Game.transitions_of_ok h]
    exact .nil
  · rw [Game.transitions_of_ok h, List.pairwise_pair]
    exact show compare (Turn.single chance heads) (Turn.single chance tails) = .lt by decide

lemma offset_evidence : evidence.offset = 0 := by
  refine Evidence.offset_eq ?_ (by decide) fun x hx => ?_
  · exact Evidence.mem_plies_withView.2 (.inr (Evidence.mem_plies_withStates.2 (.inl rfl)))
  · rcases Evidence.mem_plies_withView.1 hx with rfl | hx
    · decide
    · rcases Evidence.mem_plies_withStates.1 hx with rfl | hx
      · exact Int.le_refl 0
      · exact absurd hx Evidence.not_mem_plies_empty

end Coin

/-- The theorem applies to what is known once the last of two tosses has been seen. -/
theorem Game.lists_developments_coin : Coin.evidence.offset = 0 ∧
    (∀ s, (Coin.game.transitions s).Pairwise fun a b => compare a.1 b.1 = .lt) ∧
    ∃ ds, Coin.game.developments? Coin.evidence = .ok ds ∧
      (∀ d, d ∈ ds ↔ Coin.game.Conforms Coin.evidence d) ∧ ds.Nodup ∧
      ds.Pairwise Development.Precedes ∧
      ∀ (calls : Nat) {β : Type} (f : Development → β → β) (b : β),
        Coin.game.foldDevelopments Coin.evidence (Game.stopAfter calls f) (0, b) =
          .ok (min (calls + 1) ds.length, (ds.take (calls + 1)).foldl (fun b d => f d b) b) :=
  ⟨Coin.offset_evidence, Coin.increasing, Game.AnswersOn.lists_developments Coin.answers
    (fun s _ => Coin.increasing s) (fun _ _ => trivial) (.inr Coin.offset_evidence)⟩

end GameSearch
