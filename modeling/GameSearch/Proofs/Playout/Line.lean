import GameSearch.Chance.Twister
import GameSearch.Proofs.Exact
import GameSearch.Proofs.Refereeing

/-!
# The line that a playout takes

A playout is a line of plies, each of them one legal move of each role in control.  `Line` says which states
it passes and where it stops; `PlayoutEvaluator.takes_line` that there is such a line for any source of random
numbers, so that no playout fails.
-/

namespace GameSearch

/-- One ply: one legal move of each role in control, which the referee accepts. -/
def Game.Ply (game : Game) (s t : State) : Prop :=
  ∃ control legal turn, s.control? = .ok control ∧ game.legal s = .ok legal ∧
    Game.Legal legal control.toList turn.plays ∧ game.next? s turn = .ok t

namespace PlayoutEvaluator

/-- The states after `s` that a playout comes through.  It stops at the first state that is known, at the end
of the play, or after a number of plies. -/
structure Line (game : Game) (known : State → Prop) (limit : Nat) (s : State) (line : List State) : Prop where
  plies : (s :: line).IsChain game.Ply
  passes : ∀ t ∈ (s :: line).dropLast, game.isTerminal t = .ok false ∧ ¬known t
  length_le : line.length ≤ limit
  stops : known (line.getLastD s) ∨ game.isTerminal (line.getLastD s) = .ok true ∨ line.length = limit

variable {R ε : Type} [Dice ε] {game : Game} {known states : State → Prop} {book : Book R} {left depth limit : Nat}
  {s t : State} {line : List State} {source : ε}

/-! ## One ply -/

lemma line_nil (h : known s ∨ game.isTerminal s = .ok true ∨ limit = 0) : Line game known limit s [] where
  plies := .singleton s
  passes t ht := by cases ht
  length_le := Nat.zero_le limit
  stops := h.imp_right (Or.imp_right Eq.symm)

lemma Line.cons (h : Line game known limit t line) (hply : game.Ply s t) (hgoes : game.isTerminal s = .ok false)
    (hknown : ¬known s) : Line game known (limit + 1) s (t :: line) where
  plies := .cons_cons hply h.plies
  passes u hu := by
    rcases List.mem_cons.1 hu with rfl | hu
    · exact ⟨hgoes, hknown⟩
    · exact h.passes u hu
  length_le := Nat.succ_le_succ h.length_le
  stops := by
    rw [List.getLastD_cons, List.length_cons, Nat.add_right_cancel_iff]
    exact h.stops

/-- A random turn is a ply. -/
lemma exists_ply (hgame : game.AnswersOn states) (hs : states s) (hgoes : game.isTerminal s = .ok false) (source : ε) :
    ∃ turn source' t, game.randomTurn s source = .ok turn source' ∧ game.next? s turn = .ok t ∧ game.Ply s t ∧
      states t := by
  have hnext := hgame.successors? hs
  obtain ⟨turn, source', t, hrun, hturn, hstep⟩ := Game.randomTurn_run hnext hgoes source
  obtain ⟨control, legal, hcontrol, hlegal, hiff⟩ := Game.mem_transitions_iff hnext hgoes
  obtain ⟨plays, hplays, rfl, -⟩ := (hiff turn t).1 hstep
  refine ⟨_, source', t, hrun, hturn, ⟨control, legal, _, hcontrol, hlegal, ?_, hturn⟩, hgame.closed s hs _ hstep⟩
  rwa [hplays.plays_ofList]

/-! ## The whole line -/

lemma playFrom_of_mem {value : R} (h : book[s]? = some value) :
    playFrom game book left s depth source = .ok ⟨s, depth, some value⟩ source := by
  unfold playFrom
  rw [h]
  rfl

lemma playFrom_of_terminal (hbook : book[s]? = none) (hover : game.isTerminal s = .ok true) :
    playFrom game book (left + 1) s depth source = .ok ⟨s, depth, none⟩ source := by
  rw [playFrom, hbook]
  exact Action.bind_of_ok (Action.lift_of_ok hover source)

lemma playFrom_of_ply {turn : Turn} {source' : ε} (hbook : book[s]? = none) (hgoes : game.isTerminal s = .ok false)
    (hturn : game.randomTurn s source = .ok turn source') (hnext : game.next? s turn = .ok t) :
    playFrom game book (left + 1) s depth source = playFrom game book left t (depth + 1) source' := by
  rw [playFrom, hbook]
  apply (Action.bind_of_ok (Action.lift_of_ok hgoes source)).trans
  apply (Action.bind_of_ok hturn).trans
  exact Action.bind_of_ok (Action.lift_of_ok hnext source')

/-- A playout comes to the end of its line, whatever is drawn. -/
theorem playFrom_run (hgame : game.AnswersOn states) (book : Book R) (left : Nat) (hs : states s) (depth : Nat)
    (source : ε) : ∃ line source', playFrom game book left s depth source =
      .ok ⟨line.getLastD s, depth + line.length, book[line.getLastD s]?⟩ source' ∧
        Line game (· ∈ book) left s line ∧ states (line.getLastD s) := by
  -- on the plies that are left, as each ply leads to another state with another source
  induction left generalizing s depth source with
  | zero =>
    refine ⟨[], source, ?_, line_nil (.inr (.inr rfl)), hs⟩
    rw [List.getLastD_nil]
    cases hbook : book[s]? with
    | some value => exact playFrom_of_mem hbook
    | none =>
      rw [playFrom, hbook]
      rfl
  | succ left ih =>
    cases hbook : book[s]? with
    | some value =>
      have hmem : s ∈ book := Std.ExtTreeMap.mem_iff_isSome_getElem?.2 (by rw [hbook]; rfl)
      refine ⟨[], source, ?_, line_nil (.inl hmem), hs⟩
      rw [List.getLastD_nil, hbook]
      exact playFrom_of_mem hbook
    | none =>
      have hnotMem : s ∉ book := by
        rw [Std.ExtTreeMap.mem_iff_isSome_getElem?, hbook]
        simp
      obtain ⟨ended, hover⟩ := hgame.isTerminal s hs
      cases ended with
      | true =>
        refine ⟨[], source, ?_, line_nil (.inr (.inl hover)), hs⟩
        rw [List.getLastD_nil, hbook]
        exact playFrom_of_terminal hbook hover
      | false =>
        obtain ⟨turn, source₁, t, hturn, hnext, hply, ht⟩ := exists_ply hgame hs hover source
        obtain ⟨line, source₂, hrun, hline, hlast⟩ := ih ht (depth + 1) source₁
        refine ⟨t :: line, source₂, ?_, hline.cons hply hover hnotMem, ?_⟩
        · rw [playFrom_of_ply hbook hover hturn hnext, hrun, List.getLastD_cons, List.length_cons]
          congr 2
          omega
        · rwa [List.getLastD_cons]

/-! ## The playout of an evaluator -/

/-- A state is looked up in the book with success. -/
def Finds (e : PlayoutEvaluator R ε) (useBook : Bool) (s : State) : Prop :=
  useBook = true ∧ ∃ entry ∈ e.book, s ∈ entry.1

/-- What a playout looks states up in. -/
def consulted (e : PlayoutEvaluator R ε) (useBook : Bool) : Book R :=
  if useBook then (e.book.map Prod.fst).getD ∅ else ∅

omit [Dice ε] in
lemma mem_consulted {e : PlayoutEvaluator R ε} {useBook : Bool} : s ∈ e.consulted useBook ↔ e.Finds useBook s := by
  cases useBook with
  | false => simp [consulted, Finds]
  | true => cases hbook : e.book <;> simp [consulted, Finds, hbook]

lemma play_run (hgame : game.AnswersOn states) (hs : states s) (e : PlayoutEvaluator R ε) (useBook : Bool)
    (source : ε) : ∃ line source', e.play game s useBook source =
      .ok ⟨line.getLastD s, line.length, (e.consulted useBook)[line.getLastD s]?⟩ source' ∧
        Line game (e.Finds useBook) e.maxDepth s line ∧ states (line.getLastD s) := by
  obtain ⟨line, source', hrun, hline, hlast⟩ := playFrom_run hgame (e.consulted useBook) e.maxDepth hs 0 source
  rw [Nat.zero_add] at hrun
  refine ⟨line, source', hrun, ?_, hlast⟩
  simpa only [mem_consulted] using hline

/-- A playout ends, at the end of a line of as many plies as its depth says: it passes neither the end of the
play nor a state of the book that it uses, and has a value of the book if it found one. -/
theorem takes_line (hgame : game.AnswersOn states) (hs : states s) (e : PlayoutEvaluator R ε) (useBook : Bool)
    (source : ε) : ∃ p source' line, e.play game s useBook source = .ok p source' ∧
      Line game (e.Finds useBook) e.maxDepth s line ∧ p.state = line.getLastD s ∧ p.depth = line.length ∧
        (p.bookValue.isSome ↔ e.Finds useBook p.state) := by
  obtain ⟨line, source', hrun, hline, -⟩ := play_run hgame hs e useBook source
  refine ⟨_, source', line, hrun, hline, rfl, rfl, ?_⟩
  rw [← mem_consulted, Std.ExtTreeMap.mem_iff_isSome_getElem?]

end PlayoutEvaluator

/-! ## A duel -/

namespace Duel

def challenger : Role := .symbol "challenger"

def challenged : Role := .symbol "challenged"

def paper : Move := .symbol "paper"

def rock : Move := .symbol "rock"

def ready : State := .ofList [controlOf challenger, controlOf challenged]

def wonBy (role : Role) : State := .ofList [role]

/-- Two players show paper or rock at the same time, again and again until one of them alone shows paper. -/
def game : Game where
  roles := [challenger, challenged]
  start := ready
  sees _ := .ok ∅
  legal _ := .ok (.ofList [(challenger, [paper, rock]), (challenged, [paper, rock])])
  goals s := .ok <|
    ((∅ : ByRole (Option Int)).insert challenger (some (if s = wonBy challenger then 1 else 0))).insert challenged
      (some (if s = wonBy challenger then 0 else 1))
  isTerminal s := .ok (s ≠ ready)
  play _ turn := .ok <|
    if turn.find? challenger = turn.find? challenged then ready
    else if turn.contains challenger paper then wonBy challenger else wonBy challenged

lemma exists_successors? (s : State) : ∃ next, game.successors? s = .ok next := by
  by_cases hs : s = ready
  · subst hs
    exact ⟨_, rfl⟩
  · exact ⟨[], Game.successors?_of_isTerminal (by simp [game, hs])⟩

lemma answers : game.AnswersOn fun _ => True where
  sees _ _ := ⟨_, rfl⟩
  legal _ _ := ⟨_, rfl⟩
  goals _ _ := ⟨_, rfl⟩
  isTerminal _ _ := ⟨_, rfl⟩
  successors s _ := exists_successors? s
  closed _ _ _ _ := trivial

/-- Playouts of at most three plies, with a book that knows who wins in one state. -/
def evaluator : PlayoutEvaluator ℚ Twister where
  maxDepth := 3
  final := .final
  book := some ((∅ : Book ℚ).insert (wonBy challenger) 1, challenger)

lemma finds_iff {s : State} : evaluator.Finds true s ↔ s = wonBy challenger := by
  have hmem : s ∈ (∅ : Book ℚ).insert (wonBy challenger) 1 ↔ wonBy challenger = s := by
    rw [Std.ExtTreeMap.mem_insert, Std.LawfulEqOrd.compare_eq_iff_eq]
    exact or_iff_left Std.ExtTreeMap.not_mem_empty
  constructor
  · rintro ⟨-, entry, hentry, hs⟩
    cases hentry
    exact (hmem.1 hs).symm
  · rintro rfl
    exact ⟨rfl, _, rfl, hmem.2 rfl⟩

end Duel

/-- The theorem applies to a game that may go on for ever. -/
theorem PlayoutEvaluator.takes_line_duel : ∃ (p : Playout ℚ) (source' : Twister) (line : List State),
    Duel.evaluator.play Duel.game Duel.ready true (Twister.ofSeed 1) = .ok p source' ∧
      (Duel.ready :: line).IsChain Duel.game.Ply ∧ p.state = line.getLastD Duel.ready ∧ p.depth = line.length ∧
        p.depth ≤ 3 ∧ (p.bookValue.isSome ↔ p.state = Duel.wonBy Duel.challenger) := by
  obtain ⟨p, source', line, hrun, hline, hstate, hdepth, hbook⟩ :=
    takes_line Duel.answers trivial Duel.evaluator true (Twister.ofSeed 1)
  refine ⟨p, source', line, hrun, hline.plies, hstate, hdepth, ?_, ?_⟩
  · rw [hdepth]
    exact hline.length_le
  · exact hbook.trans Duel.finds_iff

end GameSearch
