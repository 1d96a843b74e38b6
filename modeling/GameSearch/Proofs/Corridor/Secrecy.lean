import GameSearch.Proofs.Corridor.Positions
import GameSearch.Proofs.Corridor.Sight
import GameSearch.Proofs.Playing

/-!
# Hidden borders of the dark split corridor

`Sight role s` are the facts of a state that a role sees.  What a role sees after its opponent has moved follows
from what it saw before and from the step of the opponent's pawn, if it made one: the border that a block puts
up has not been run into yet, and is not seen.  So two states that look alike to a role go on to look alike,
whichever crossings its opponent blocks.
-/

namespace GameSearch.Corridor

variable {role mover owner : Role} {pawn pawn' : Role → Cell} {s t v v' : State} {f g u : Term} {m n : Move}

/-- The facts of a state that a role sees. -/
def Sight (role : Role) (s : State) (f : Term) : Prop := f ∈ s ∧ sees s role f = true

/-! ## Single facts -/

lemma sees_border (howner : owner ∈ game.roles) (hu : u.text ∈ blockable) :
    sees s role (border owner u) = true ↔ owner ≠ role ∨ revealed role u ∈ s := by
  have harguments := arguments?_border howner (whole_of_mem_blockable hu)
  simp [sees, isVisible?, harguments, bind, Except.bind, pure, Except.pure, Except.toOption, State.contains]

lemma sees_revealed (howner : owner ∈ game.roles) (hu : u.text ∈ blockable) :
    sees s role (revealed owner u) = true ↔ owner = role := by
  have harguments := arguments?_revealed howner (whole_of_mem_blockable hu)
  simp [sees, isVisible?, harguments, bind, Except.bind, pure, Except.pure, Except.toOption]

lemma arguments?_fact (hf : Fact f) : ∃ arguments, f.arguments? = .ok arguments := by
  cases hf with
  | control h => exact ⟨_, arguments?_control h⟩
  | pawn h c => exact ⟨_, arguments?_pawnAt h c.whole_term⟩
  | border h hu => exact ⟨_, arguments?_border h (whole_of_mem_blockable hu)⟩
  | revealed h hu => exact ⟨_, arguments?_revealed h (whole_of_mem_blockable hu)⟩

/-- A state that is made of facts of the game can be seen. -/
lemma exists_view? (h : ∀ f ∈ s, Fact f) (role : Role) : ∃ v, view? s role = .ok v := by
  have hvisible : ∀ f ∈ s.toList, ∃ b, isVisible? s role f = .ok b := by
    intro f hf
    obtain ⟨arguments, harguments⟩ := arguments?_fact (h f hf)
    simp only [isVisible?, harguments]
    split
    · exact ⟨true, rfl⟩
    · simp only [bind, Except.bind]
      split <;> exact ⟨_, rfl⟩
  obtain ⟨l, hl⟩ := exists_filterM_eq_ok hvisible
  exact ⟨.ofList l, by simp [view?, hl, bind, Except.bind, pure, Except.pure]⟩

/-- The game shows a role its view of such a state. -/
lemma game_view?_eq (h : ∀ f ∈ s, Fact f) (hrole : role ∈ game.roles) : game.view? s role = view? s role := by
  obtain ⟨atLeft, hleft⟩ := exists_view? h left
  obtain ⟨atRight, hright⟩ := exists_view? h right
  have hviews : game.sees s = .ok (both atLeft atRight) := by
    simp [game, hleft, hright, bind, Except.bind, pure, Except.pure]
  rw [Game.view?_of_sees hviews]
  rcases mem_roles.1 hrole with rfl | rfl
  · rw [hleft]
    rfl
  · rw [hright]
    rfl

/-- What is seen of a state depends on the rest of it only through what the role ran into. -/
lemma sees_congr (hf : Fact f) (hrevealed : ∀ u, revealed role u ∈ s ↔ revealed role u ∈ t) :
    sees s role f = true ↔ sees t role f = true := by
  cases hf with
  | control => simp [sees_of_name (.inl (Term.name_controlOf _))]
  | pawn => simp [sees_of_name (.inr name_pawnAt)]
  | border howner hu => rw [sees_border howner hu, sees_border howner hu, hrevealed]
  | revealed howner hu => rw [sees_revealed howner hu, sees_revealed howner hu]

/-- Two states look alike to a role if it sees the same facts of them. -/
lemma view?_eq_iff (hs : view? s role = .ok v) (ht : view? t role = .ok v') :
    v = v' ↔ ∀ f, Sight role s f ↔ Sight role t f := by
  have hmem : ∀ {s v}, view? s role = .ok v → ∀ f, f ∈ v ↔ Sight role s f := fun h f => by
    rw [← State.mem_toList, (view?_eq_ok h).2, List.mem_filter]
    rfl
  simp only [← hmem hs, ← hmem ht]
  exact ⟨fun h => h ▸ fun _ => .rfl, State.ext_mem⟩

/-! ## What a move of the opponent changes -/

section

variable (hfacts : ∀ f ∈ s, Fact f)
include hfacts

lemma sight_passed : Sight role (passed s mover) f ↔
    (Sight role s f ∧ f.name ≠ "control") ∨ f = controlOf (other mover) := by
  have hrevealed : ∀ u, revealed role u ∈ passed s mover ↔ revealed role u ∈ s := fun u =>
    mem_passed_of_name_ne (by simp)
  unfold Sight
  rw [mem_passed, or_and_right]
  refine or_congr ?_ (and_iff_left_of_imp ?_)
  · rw [and_right_comm]
    refine and_congr_left fun _ => and_congr_right fun hf => ?_
    exact sees_congr (hfacts f hf) hrevealed
  · rintro rfl
    exact sees_of_name (.inl (Term.name_controlOf _))

/-- A new fact that a role does not see, and that does not show it anything, is not noticed. -/
lemma sight_insert (hg : ∀ u, revealed role u ≠ g) (hhidden : g ∉ s → sees s role g ≠ true) (hfact : Fact g) :
    Sight role (s.insert g) f ↔ Sight role s f := by
  have hrevealed : ∀ u, revealed role u ∈ s.insert g ↔ revealed role u ∈ s := fun u => by simp [hg u]
  unfold Sight
  rw [State.mem_insert]
  constructor
  · rintro ⟨rfl | hf, hsees⟩
    · have hin : f ∈ s := by
        by_contra hnot
        exact hhidden hnot ((sees_congr hfact hrevealed).1 hsees)
      exact ⟨hin, (sees_congr hfact hrevealed).1 hsees⟩
    · exact ⟨hf, (sees_congr (hfacts f hf) hrevealed).1 hsees⟩
  · exact fun ⟨hf, hsees⟩ => ⟨.inr hf, (sees_congr (hfacts f hf) hrevealed).2 hsees⟩

/-- A pawn that moves on is seen to do so. -/
lemma sight_moved {a b : Cell} (hsource : pawnAt mover a.term ∈ s) :
    Sight role (replaced s (pawnAt mover a.term) (pawnAt mover b.term)) f ↔
      f = pawnAt mover b.term ∨ (Sight role s f ∧ f ≠ pawnAt mover a.term) := by
  have hrevealed : ∀ u, revealed role u ∈ replaced s (pawnAt mover a.term) (pawnAt mover b.term) ↔
      revealed role u ∈ s := fun u => by simp [mem_replaced hsource, ne_of_name_ne]
  unfold Sight
  rw [mem_replaced hsource, or_and_right]
  refine or_congr (and_iff_left_of_imp ?_) ?_
  · rintro rfl
    exact sees_of_name (.inr name_pawnAt)
  · rw [and_right_comm]
    refine and_congr_left fun _ => and_congr_right fun hf => ?_
    exact sees_congr (hfacts f hf) hrevealed

end

/-! ## A move of the opponent -/

lemma other_other (h : role ∈ game.roles) : other (other role) = role := by
  rcases mem_roles.1 h with rfl | rfl <;> decide

/-- Two moves that look the same to the role that they may hinder: they are the same, or both of them block. -/
def Indistinct (m n : Move) : Prop := m = n ∨ (m.name = "block" ∧ n.name = "block")

namespace Position

/-- The role in control may do what the rules of the game say, and nobody else has a move. -/
lemma isLegal?_iff (h : Position mover pawn s) : ∃ moves, Corridor.moves? s mover = .ok moves ∧
    (∀ m, game.isLegal? s mover m = .ok true ↔ m ∈ moves) ∧
    ∀ m ∈ moves, game.next? s (.single mover m) = Corridor.play s (.ofList [⟨mover, m⟩]) := by
  obtain ⟨moves, hmoves, -, -⟩ := h.moves?
  obtain ⟨legal, hlegal, hmover⟩ := h.legal hmoves
  obtain ⟨control, hcontrol, honly⟩ := h.control?
  refine ⟨moves, hmoves, fun m => ?_, fun m hm => ?_⟩
  · simp [Game.isLegal?, Game.moves?, hlegal, hmover, bind, Except.bind, pure, Except.pure]
  · have hplays : Game.Legal legal control.toList [⟨mover, m⟩] := by
      rw [honly]
      exact .cons ⟨rfl, by rwa [hmover]⟩ .nil
    exact Game.next?_of_legal hcontrol hlegal hplays

/-- A border that is put up is not seen by the role that it hinders. -/
lemma sight_block (h : Position (other role) pawn s) (hrole : role ∈ game.roles) (hu : u.text ∈ blockable) :
    ∃ s', Corridor.play s (.ofList [⟨other role, .compound "block" u []⟩]) = .ok s' ∧ (∀ f ∈ s', Fact f) ∧
      ∀ f, Sight role s' f ↔ Sight role (Corridor.passed s (other role)) f := by
  obtain ⟨own, hown, -, -⟩ := h.board? h.mover_mem
  refine ⟨_, play_block hown (whole_of_mem_blockable hu), ?_, fun f => ?_⟩
  · rw [other_other hrole]
    intro f hf
    rcases State.mem_insert.1 hf with rfl | hf
    · exact .border hrole hu
    · exact h.passed.facts f hf
  · rw [other_other hrole]
    refine sight_insert h.passed.facts (fun w => ne_of_name_ne (by simp)) (fun hnew hsees => hnew ?_) (.border hrole hu)
    exact h.passed.revealed role hrole u (((sees_border hrole hu).1 hsees).resolve_left (not_not_intro rfl))

/-- What a role sees of a step of its opponent's pawn: that it went on, or that it stayed where it was. -/
lemma sight_step (h : Position (other role) pawn s) (hrole : role ∈ game.roles) {d : Direction} {next : Cell}
    (hnext : (pawn (other role)).neighbour? d = some next) :
    ∃ s', Corridor.play s (.ofList [⟨other role, step d⟩]) = .ok s' ∧ (∀ f ∈ s', Fact f) ∧
      ((∃ w, border (other role) w ∈ s ∧ w.text = (pawn (other role)).crossing next) →
        ∀ f, Sight role s' f ↔ Sight role (Corridor.passed s (other role)) f) ∧
      ((¬∃ w, border (other role) w ∈ s ∧ w.text = (pawn (other role)).crossing next) →
        ∀ f, Sight role s' f ↔ f = pawnAt (other role) next.term ∨
          (Sight role (Corridor.passed s (other role)) f ∧ f ≠ pawnAt (other role) (pawn (other role)).term)) := by
  obtain ⟨own, hown, hof, hpawn⟩ := h.board? h.mover_mem
  rw [← hpawn] at hnext
  rw [← hpawn, ← hof.borders]
  by_cases hin : own.pawn.crossing next ∈ own.borders
  · obtain ⟨w, hw, htext⟩ := (hof.borders _).1 hin
    have hblockable : w.text ∈ blockable := (h.facts _ hw).mem_blockable h.mover_mem
    refine ⟨_, play_step_blocked hown hnext (htext ▸ hin) htext, fun f hf => ?_, fun _ f => ?_,
      fun hnot => absurd hin hnot⟩
    · rcases State.mem_insert.1 hf with rfl | hf
      · exact .revealed h.mover_mem hblockable
      · exact h.passed.facts f hf
    · refine sight_insert h.passed.facts (fun w' heq => ?_) (fun _ hsees => ?_) (.revealed h.mover_mem hblockable)
      · exact other_ne hrole ((revealed_inj hrole h.mover_mem).1 heq).1.symm
      · exact other_ne hrole ((sees_revealed h.mover_mem hblockable).1 hsees)
  · have hsource : pawnAt (other role) own.pawn.term ∈ Corridor.passed s (other role) := by
      rw [hpawn]
      exact (h.passed.pawns _ h.mover_mem _).2 rfl
    refine ⟨_, play_step_open hown hnext hin, fun f hf => ?_, fun hnot => absurd hnot hin, fun _ f => ?_⟩
    · rcases (mem_replaced hsource).1 hf with rfl | ⟨hf, -⟩
      · exact .pawn h.mover_mem next
      · exact h.passed.facts f hf
    · exact sight_moved h.passed.facts hsource

end Position

section

variable (hrole : role ∈ game.roles) (hsight : ∀ f, Sight role s f ↔ Sight role t f)
include hsight

/-- The pawns are seen. -/
lemma Position.pawn_eq (h : Position mover pawn s) (h' : Position mover pawn' t) (howner : owner ∈ game.roles) :
    pawn owner = pawn' owner := by
  have hseen : Sight role s (pawnAt owner (pawn owner).term) :=
    ⟨(h.pawns owner howner _).2 rfl, sees_of_name (.inr name_pawnAt)⟩
  exact (h'.pawns owner howner _).1 ((hsight _).1 hseen).1

include hrole in
/-- The borders that hinder the opponent are seen. -/
lemma border_mem_iff (hs : ∀ f ∈ s, Fact f) (ht : ∀ f ∈ t, Fact f) :
    border (other role) u ∈ s ↔ border (other role) u ∈ t := by
  have hseen : ∀ s : State, (∀ f ∈ s, Fact f) → (Sight role s (border (other role) u) ↔ border (other role) u ∈ s) :=
    fun s hs => and_iff_left_of_imp fun hu =>
      (sees_border other_mem ((hs _ hu).mem_blockable other_mem)).2 (.inl (other_ne hrole))
  rw [← hseen s hs, ← hseen t ht, hsight]

lemma sight_passed_congr (hs : ∀ f ∈ s, Fact f) (ht : ∀ f ∈ t, Fact f) :
    Sight role (passed s mover) f ↔ Sight role (passed t mover) f := by
  rw [sight_passed hs, sight_passed ht, hsight]

include hrole in
/-- Whatever its opponent does, what a role sees afterwards follows from what it saw before, and from the move
if that was not a block. -/
theorem Position.sight_play (h : Position (other role) pawn s) (h' : Position (other role) pawn' t)
    {moves moves' : List Move} (hmoves : Corridor.moves? s (other role) = .ok moves)
    (hmoves' : Corridor.moves? t (other role) = .ok moves') (hm : m ∈ moves) (hn : n ∈ moves')
    (hmn : Indistinct m n) : ∃ s' t', Corridor.play s (.ofList [⟨other role, m⟩]) = .ok s' ∧
      Corridor.play t (.ofList [⟨other role, n⟩]) = .ok t' ∧ (∀ f ∈ s', Fact f) ∧ (∀ f ∈ t', Fact f) ∧
      ∀ f, Sight role s' f ↔ Sight role t' f := by
  obtain ⟨_, hl, hlegal, -⟩ := h.moves?
  cases hl.symm.trans hmoves
  obtain ⟨_, hl, hlegal', -⟩ := h'.moves?
  cases hl.symm.trans hmoves'
  have hpass : ∀ f, Sight role (Corridor.passed s (other role)) f ↔ Sight role (Corridor.passed t (other role)) f :=
    fun f => sight_passed_congr hsight h.facts h'.facts
  have hblock : ∀ u : Term, (Term.compound "block" u []).name = "block" := fun u => Term.name_compound (by decide)
  rcases hlegal m hm with ⟨u, rfl, hu, -⟩ | ⟨d, next, rfl, hnext⟩
  · have hname : n.name = "block" := by
      rcases hmn with rfl | ⟨-, hname⟩
      · exact hblock u
      · exact hname
    rcases hlegal' n hn with ⟨w, rfl, hw, -⟩ | ⟨d, -, rfl, -⟩
    · obtain ⟨s', hs', hfacts, hsees⟩ := h.sight_block hrole hu
      obtain ⟨t', ht', hfacts', hsees'⟩ := h'.sight_block hrole hw
      exact ⟨s', t', hs', ht', hfacts, hfacts', fun f => by rw [hsees, hsees', hpass]⟩
    · rw [name_step] at hname
      exact absurd hname (by decide)
  · obtain rfl : step d = n := by
      refine hmn.resolve_right fun ⟨hname, _⟩ => ?_
      rw [name_step] at hname
      exact absurd hname (by decide)
    have hpawn := Position.pawn_eq hsight h h' h.mover_mem
    obtain ⟨s', hs', hfacts, hstays, hgoes⟩ := h.sight_step hrole hnext
    obtain ⟨t', ht', hfacts', hstays', hgoes'⟩ := h'.sight_step hrole (hpawn ▸ hnext)
    refine ⟨s', t', hs', ht', hfacts, hfacts', fun f => ?_⟩
    -- the role sees the borders that hinder its opponent, so that the step has the same outcome in both states
    have hborder : (∃ w, border (other role) w ∈ s ∧ w.text = (pawn (other role)).crossing next) ↔
        ∃ w, border (other role) w ∈ t ∧ w.text = (pawn' (other role)).crossing next := by
      simp only [hpawn, border_mem_iff hrole hsight h.facts h'.facts]
    by_cases hin : ∃ w, border (other role) w ∈ s ∧ w.text = (pawn (other role)).crossing next
    · rw [hstays hin, hstays' (hborder.1 hin), hpass]
    · rw [hgoes hin, hgoes' (hborder.not.1 hin), hpass, hpawn]

end

/-- Two states that look alike to a role: if its opponent makes the same move in both, or puts up a border in
both, whichever it is, the role sees no difference afterwards. -/
theorem blocks_secretly {i j : Nat} (hs : game.After i game.start s) (ht : game.After j game.start t)
    (hrole : role ∈ game.roles) (hsame : game.view? s role = game.view? t role)
    (hcontrol : s.isInControl (other role) = true) (hm : game.isLegal? s (other role) m = .ok true)
    (hn : game.isLegal? t (other role) n = .ok true) (hmn : Indistinct m n) :
    ∃ s' t' v, game.next? s (.single (other role) m) = .ok s' ∧
      game.next? t (.single (other role) n) = .ok t' ∧
      game.view? s' role = .ok v ∧ game.view? t' role = .ok v := by
  obtain ⟨mover, pawn, h⟩ := exists_position_of_after hs
  obtain ⟨mover', pawn', h'⟩ := exists_position_of_after ht
  rw [game_view?_eq h.facts hrole, game_view?_eq h'.facts hrole] at hsame
  obtain ⟨v, hv⟩ := exists_view? h.facts role
  have hsight := (view?_eq_iff hv (hsame ▸ hv)).1 rfl
  rw [State.isInControl_iff] at hcontrol
  obtain rfl := (h.control _).1 hcontrol
  obtain rfl := (h'.control _).1 ((hsight _).1 ⟨hcontrol, sees_of_name (.inl (Term.name_controlOf _))⟩).1
  obtain ⟨moves, hmoves, hlegal, hnext⟩ := h.isLegal?_iff
  obtain ⟨moves', hmoves', hlegal', hnext'⟩ := h'.isLegal?_iff
  have hm := (hlegal m).1 hm
  have hn := (hlegal' n).1 hn
  obtain ⟨s', t', hs', ht', hfacts, hfacts', hsight'⟩ := h.sight_play hrole hsight h' hmoves hmoves' hm hn hmn
  obtain ⟨v', hv'⟩ := exists_view? hfacts role
  obtain ⟨w, hw⟩ := exists_view? hfacts' role
  obtain rfl := (view?_eq_iff hv' hw).2 hsight'
  exact ⟨s', t', v', (hnext m hm).trans hs', (hnext' n hn).trans ht', (game_view?_eq hfacts hrole).trans hv',
    (game_view?_eq hfacts' hrole).trans hw⟩

/-- At the start `left` may block any crossing that leaves `right` a way. -/
lemma isLegal?_start (hu : u.text ∈ blockable) (hreach : canFinish Cell.first [] u.text = true) :
    game.isLegal? game.start left (.compound "block" u []) = .ok true := by
  obtain ⟨moves, hmoves, hlegal, -⟩ := position_start.isLegal?_iff
  exact (hlegal _).2 (position_start.block_mem not_border_start hu hreach hmoves)

/-- The theorem applies to two borders that `left` can put up at once in the way of `right`. -/
theorem blocks_secretly_start : game.After 0 game.start game.start ∧
    ∃ s' t' v, game.next? game.start (.single left (.compound "block" (.symbol "b2-b3") [])) = .ok s' ∧
      game.next? game.start (.single left (.compound "block" (.symbol "b1-b2") [])) = .ok t' ∧
      game.view? s' right = .ok v ∧ game.view? t' right = .ok v := by
  have hstart : game.After 0 game.start game.start := rfl
  have hother : other right = left := by decide
  have hcontrol : game.start.isInControl left = true := by decide +kernel
  have hm : game.isLegal? game.start left (.compound "block" (.symbol "b2-b3") []) = .ok true :=
    isLegal?_start (mem_blockable.2 ⟨⟨1, 1⟩, ⟨1, 2⟩, by decide +kernel, by decide, by decide +kernel⟩)
      (by decide +kernel)
  have hn : game.isLegal? game.start left (.compound "block" (.symbol "b1-b2") []) = .ok true :=
    isLegal?_start (mem_blockable.2 ⟨⟨1, 0⟩, ⟨1, 1⟩, by decide +kernel, by decide, by decide +kernel⟩)
      (by decide +kernel)
  have hindistinct : Indistinct (.compound "block" (.symbol "b2-b3") []) (.compound "block" (.symbol "b1-b2") []) :=
    .inr ⟨Term.name_compound (by decide), Term.name_compound (by decide)⟩
  rw [← hother] at hcontrol hm hn ⊢
  exact ⟨hstart, blocks_secretly hstart hstart right_mem rfl hcontrol hm hn hindistinct⟩

end GameSearch.Corridor
