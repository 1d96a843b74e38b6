import GameSearch.Game.Registry
import GameSearch.Proofs.Corridor.Sight

/-!
# Views that stand in for states

In the games of the library, what a role sees is all that its moves depend on: who is in control, whether the
play is over and what the role may do.
-/

namespace GameSearch

variable {role : Role} {s t v : State}

/-- Two states, or a state and a view, that are alike as far as the moves of a role go. -/
structure Game.AlikeFor (game : Game) (role : Role) (s t : State) : Prop where
  control : ∀ control, s.control? = .ok control ↔ t.control? = .ok control
  inControl : ∀ mover, s.isInControl mover = t.isInControl mover
  isTerminal : ∀ answer, game.isTerminal s = .ok answer ↔ game.isTerminal t = .ok answer
  moves : ∀ moves, game.moves? s role = .ok moves ↔ game.moves? t role = .ok moves

namespace Game.AlikeFor

variable {game : Game}

lemma refl (game : Game) (role : Role) (s : State) : game.AlikeFor role s s :=
  ⟨fun _ => .rfl, fun _ => rfl, fun _ => .rfl, fun _ => .rfl⟩

lemma symm (h : game.AlikeFor role s t) : game.AlikeFor role t s :=
  ⟨fun c => (h.control c).symm, fun r => (h.inControl r).symm, fun b => (h.isTerminal b).symm,
    fun l => (h.moves l).symm⟩

lemma trans (h : game.AlikeFor role s t) (h' : game.AlikeFor role t v) : game.AlikeFor role s v :=
  ⟨fun c => (h.control c).trans (h'.control c), fun r => (h.inControl r).trans (h'.inControl r),
    fun b => (h.isTerminal b).trans (h'.isTerminal b), fun l => (h.moves l).trans (h'.moves l)⟩

end Game.AlikeFor

lemma Tictactoe.alikeFor_view (hrole : role ∈ game.roles) (hview : game.view? s role = .ok v) :
    game.AlikeFor role s v := by
  have hroles : role = o ∨ role = x := by simpa [game] using hrole
  have hsame : game.view? s role = .ok s := by
    rcases hroles with rfl | rfl <;> rfl
  cases hsame.symm.trans hview
  exact .refl game role s

namespace Minipoker

lemma mem_callerView {f : Term} (hred : f ≠ dealtCard red) (hblack : f ≠ dealtCard black) :
    f ∈ callerView s ↔ f ∈ s := by
  unfold callerView
  split
  · rfl
  · simp [hred, hblack]

lemma named_callerView (s : State) : (callerView s).named "control" = s.named "control" := by
  unfold callerView
  split
  · rfl
  rw [State.named, State.toList_ofList_filter, List.filter_filter, State.named]
  refine List.filter_congr fun f _ => ?_
  by_cases hname : f.name = "control"
  · have hne : ∀ colour, dealtCard colour ≠ f := fun colour heq => by
      rw [← heq, dealtCard, Term.name_compound (by decide)] at hname
      exact absurd hname (by decide)
    simp [hname, (hne red).symm, (hne black).symm]
  · simp [hname]

/-- The caller sees all but the card, and its moves do not depend on that. -/
lemma alikeFor_callerView (s : State) : game.AlikeFor caller s (callerView s) := by
  have hcontains : ∀ f : Term, f ≠ dealtCard red → f ≠ dealtCard black →
      (callerView s).contains f = s.contains f := fun f hred hblack => by
    rw [State.contains, State.contains, decide_eq_decide]
    exact mem_callerView hred hblack
  have hcontrol : ∀ mover, (callerView s).contains (controlOf mover) = s.contains (controlOf mover) := by
    refine fun mover => hcontains _ ?_ ?_ <;> intro heq <;> have hname := congrArg Term.name heq <;>
      rw [Term.name_controlOf, dealtCard, Term.name_compound (by decide)] at hname <;>
      exact absurd hname (by decide)
  have hover : isOver (callerView s) = isOver s := by
    rw [isOver, isOver, hcontains _ (by decide) (by decide), hcontains _ (by decide) (by decide),
      hcontains _ (by decide) (by decide)]
  have hlegal : (legal (callerView s)).getD caller [] = (legal s).getD caller [] := by
    simp only [legal, hcontrol]
    split
    · rfl
    split
    -- only the moves of the bluffer depend on the card
    · have hnone : ∀ moves, (.ofList [(bluffer, moves)] : ByRole (List Move)).getD caller [] = [] := fun moves => by
        rw [Std.ExtTreeMap.ofList_singleton, Std.ExtTreeMap.getD_insert, if_neg (by decide)]
        rfl
      rw [hnone, hnone]
    · rfl
  refine ⟨fun control => ?_, fun mover => (hcontrol mover).symm, fun answer => ?_, fun moves => ?_⟩
  · rw [State.control?, State.control?, named_callerView]
  · simp only [game, hover]
  · simp only [Game.moves?, game, bind, Except.bind, hlegal]

lemma alikeFor_view (hrole : role ∈ game.roles) (hview : game.view? s role = .ok v) :
    game.AlikeFor role s v := by
  have hroles : role = bluffer ∨ role = caller ∨ role = chance := by simpa [game] using hrole
  rcases hroles with rfl | rfl | rfl
  · cases (show game.view? s bluffer = .ok s from rfl).symm.trans hview
    exact .refl game bluffer s
  · cases (show game.view? s caller = .ok (callerView s) from rfl).symm.trans hview
    exact alikeFor_callerView s
  · cases (show game.view? s chance = .ok s from rfl).symm.trans hview
    exact .refl game chance s

end Minipoker

lemma Corridor.alikeFor_view (hrole : role ∈ game.roles) (hview : game.view? s role = .ok v) :
    game.AlikeFor role s v := by
  have hv := view?_of_game_view? hrole hview
  refine ⟨fun control => ?_, fun mover => ?_, (isOver?_view hv).eq_ok_iff, (game_moves?_view hrole hv).eq_ok_iff⟩
  · rw [control?_view hv]
  · rw [State.isInControl, State.isInControl, State.contains, State.contains, decide_eq_decide, ← State.mem_toList,
      ← State.mem_toList, (view?_eq_ok hv).2, List.mem_filter]
    exact (and_iff_left (sees_of_name (.inl (Term.name_controlOf mover)))).symm

/-- In each game of the library, the view of a role can stand in for the state: it leaves the roles in control,
the end of the play and the legal moves of the role as they are.  So states that look alike to the role do
not differ in these. -/
theorem Game.view_stands_in {ruleset : Ruleset} {game : Game} (hgame : Game.ofName? ruleset = .ok game)
    (hrole : role ∈ game.roles) (hview : game.view? s role = .ok v) :
    game.AlikeFor role s v ∧ ∀ t, game.view? t role = .ok v → game.AlikeFor role s t := by
  have hall : ∀ t, game.view? t role = .ok v → game.AlikeFor role t v := by
    intro t ht
    unfold Game.ofName? at hgame
    split at hgame <;> cases hgame
    · exact Tictactoe.alikeFor_view hrole ht
    · exact Minipoker.alikeFor_view hrole ht
    · exact Corridor.alikeFor_view hrole ht
  exact ⟨hall s hview, fun t ht => (hall s hview).trans (hall t ht).symm⟩

/-- A state in which a border hinders `left`, which does not see it. -/
def Corridor.hindered : State :=
  .ofList [pawnAt left firstCell, pawnAt right firstCell, controlOf left, border left (.symbol "b1-b2"),
    border right (.symbol "a1-a2")]

/-- What `left` sees of that state. -/
def Corridor.hinderedView : View :=
  .ofList [pawnAt left firstCell, pawnAt right firstCell, controlOf left, border right (.symbol "a1-a2")]

/-- The theorem applies where a border is hidden. -/
theorem Game.view_stands_in_hindered : Corridor.hindered ≠ Corridor.hinderedView ∧
    Corridor.game.AlikeFor Corridor.left Corridor.hindered Corridor.hinderedView := by
  have hgame : Game.ofName? ⟨"dark_split_corridor"⟩ = .ok Corridor.game := rfl
  have hview : Corridor.game.view? Corridor.hindered Corridor.left = .ok Corridor.hinderedView := by rfl
  exact ⟨by decide +kernel, (Game.view_stands_in hgame Corridor.left_mem hview).1⟩

end GameSearch
